import GameScript.Analysis.Parameters
import GameScript.Proofs.Expression.Order
import GameScript.Proofs.Statement.Fit
import GameScript.Proofs.Token.Scan

/-!
# Parameters of the declared types

`Parameter.WellTyped` says what the tokens of a parameter must be: of the declared type, with number
literals that fit in 32 bits, with objects that the library knows and, if they are an expression, in
an evaluation order.

* `Parameter.wellTyped_of_reports`: a parameter that the check reports nothing about is well typed.
* `Parameter.reports_of_wellTyped`: the check reports nothing about a well typed expression.
-/

namespace GameScript

namespace Token

/-! ## Number literals -/

/-- The last of the tokens is a minus sign; before the first token stands one if `b` is true. -/
def endsWithMinus (b : Bool) (ts : List Token) : Bool :=
  (ts.getLast?.map fun m => m.is .unaryOp "-").getD b

theorem endsWithMinus_cons (b : Bool) (t : Token) (ts : List Token) :
    endsWithMinus b (t :: ts) = endsWithMinus (t.is .unaryOp "-") ts := by
  cases ts with
  | nil => simp [endsWithMinus]
  | cons u us => simp [endsWithMinus, List.getLast?_cons]

/-- The number literals fit in 32 bits, each with the minus sign before it. -/
def LiteralsFit (ts : List Token) : Prop :=
  ∀ a n b, ts = a ++ n :: b → n.kind = .number → literalFits (endsWithMinus false a) n.text = true

theorem oversized_eq_nil_iff (minus : Option Token) (ts : List Token) : oversized minus ts = [] ↔
    ∀ a n b, ts = a ++ n :: b → n.kind = .number →
      literalFits (endsWithMinus minus.isSome a) n.text = true := by
  induction ts generalizing minus with
  | nil => simp [oversized]
  | cons t ts ih =>
    have hsign : (if t.is .unaryOp "-" then some t else none).isSome = t.is .unaryOp "-" := by
      cases t.is .unaryOp "-" <;> rfl
    have hstep : oversized minus (t :: ts) = [] ↔
        (t.kind = .number → literalFits minus.isSome t.text = true) ∧
        oversized (if t.is .unaryOp "-" then some t else none) ts = [] := by
      simp only [oversized]
      by_cases hnumber : t.kind = .number <;> cases literalFits minus.isSome t.text <;>
        simp [hnumber]
    rw [hstep, ih, hsign]
    constructor
    · rintro ⟨hfirst, hrest⟩ a n b hsplit hn
      cases a with
      | nil =>
        obtain ⟨rfl, rfl⟩ := List.cons.inj hsplit
        exact hfirst hn
      | cons u a =>
        obtain ⟨rfl, htail⟩ := List.cons.inj hsplit
        rw [endsWithMinus_cons]
        exact hrest a n b htail hn
    · intro h
      refine ⟨fun ht => h [] t ts rfl ht, fun a n b hsplit hn => ?_⟩
      have hn := h (t :: a) n b (by rw [hsplit]; rfl) hn
      rwa [endsWithMinus_cons] at hn

theorem oversized_eq_nil {ts : List Token} : oversized none ts = [] ↔ LiteralsFit ts :=
  oversized_eq_nil_iff none ts

/-- A literal of a value fits if the value does. -/
theorem LiteralsFit.single {t : Token} (h : t.kind = .number → literalFits false t.text = true) :
    LiteralsFit [t] := by
  rw [← oversized_eq_nil, oversized]
  by_cases hkind : t.kind = .number
  · simp [hkind, h hkind, oversized]
  · simp [hkind, oversized]

theorem LiteralsFit.negated {m n : Token} (hm : m.is .unaryOp "-" = true)
    (h : literalFits true n.text = true) :
    LiteralsFit [m, n] := by
  have hkind : m.kind ≠ .number := by
    simp only [Token.is, Bool.and_eq_true, beq_iff_eq] at hm
    rw [hm.1]
    decide
  rw [← oversized_eq_nil]
  simp [oversized, hkind, hm, h]

/-- A token that is neither a number nor a minus sign parts the literals. -/
theorem oversized_append {t : Token} (ht : t.kind ≠ .number) (hminus : t.is .unaryOp "-" = false)
    (minus : Option Token) (ts us : List Token) :
    oversized minus (ts ++ t :: us) = oversized minus ts ++ oversized none us := by
  induction ts generalizing minus with
  | nil => simp [oversized, ht, hminus]
  | cons u ts ih =>
    simp only [List.cons_append, oversized, ih]
    split <;> rfl

theorem literalsFit_append {t : Token} (ht : t.kind ≠ .number) (hminus : t.is .unaryOp "-" = false)
    (ts us : List Token) : LiteralsFit (ts ++ t :: us) ↔ LiteralsFit ts ∧ LiteralsFit us := by
  simp only [← oversized_eq_nil, oversized_append ht hminus, List.append_eq_nil_iff]

/-! ## Objects -/

def Known (objects : Option ObjectLibrary) (t : Token) : Prop :=
  ∀ library, objects = some library →
    (t.kind = .gameObject → library.hasGameObject t.value = true) ∧
    (t.kind = .scriptObject → library.hasScriptObject t.value = true)

theorem unknownObjects_eq_nil {objects : Option ObjectLibrary} {ts : List Token} :
    unknownObjects objects ts = [] ↔ ∀ t ∈ ts, t.Known objects := by
  cases objects with
  | none => simp [unknownObjects, Known]
  | some library =>
    simp only [unknownObjects, List.map_eq_nil_iff, List.filter_eq_nil_iff, Known,
      Option.some.injEq, forall_eq']
    refine forall_congr' fun t => imp_congr_right fun _ => ?_
    cases ht : t.kind <;> simp

/-! ## Types -/

def Sole (kind : TokenKind) (ts : List Token) : Prop := ∃ t, ts = [t] ∧ t.kind = kind

def IsNumeric (ts : List Token) : Prop :=
  Sole .number ts ∨ ∃ m n, ts = [m, n] ∧ m.is .unaryOp "-" = true ∧ n.kind = .number

theorem isNumeric_iff {ts : List Token} : IsNumeric ts ↔ (numericLiteral? ts).isSome = true := by
  rcases ts with _ | ⟨t, _ | ⟨u, _ | ⟨v, ts⟩⟩⟩
  · simp [IsNumeric, Sole, numericLiteral?]
  · simp only [IsNumeric, Sole, numericLiteral?]
    by_cases ht : t.kind = .number <;> simp [ht]
  · have hpair : IsNumeric [t, u] ↔ t.is .unaryOp "-" = true ∧ u.kind = .number := by
      constructor
      · rintro (⟨v, hv, -⟩ | ⟨m, n, hmn, h⟩)
        · cases hv
        · cases hmn
          exact h
      · exact fun h => .inr ⟨t, u, rfl, h⟩
    rw [hpair, numericLiteral?]
    by_cases hu : u.kind = .number <;> cases t.is .unaryOp "-" <;> simp [hu]
  · simp [IsNumeric, Sole, numericLiteral?]

end Token

/-- The tokens are of the declared type. -/
def ParamKind.Admits (kind : ParamKind) (ts : List Token) : Prop :=
  match kind with
  | .var => Token.Sole .var ts
  | .number => Token.Sole .var ts ∨ Token.IsNumeric ts
  | .string => Token.Sole .string ts ∨ Token.Sole .var ts
  | .gameObject => Token.Sole .gameObject ts ∨ Token.Sole .var ts
  | .scriptObject => Token.Sole .scriptObject ts ∨ Token.Sole .var ts
  | _ => kind.Takes ts

/-- The parameter is of its declared type, its literals fit, its objects are known, and an
expression has an evaluation order. -/
structure Parameter.WellTyped (objects : Option ObjectLibrary) (p : Parameter) : Prop where
  admits : p.kind.Admits p.tokens
  literals : Token.LiteralsFit p.tokens
  known : ∀ t ∈ p.tokens, t.Known objects
  order : p.kind = .expression → ∃ order, Expression.evalOrder p.tokens = .ok order

/-! ## The check -/

namespace ParamKind

variable {objects : Option ObjectLibrary} {ts : List Token}

theorem admits_of_mismatch? {kind : ParamKind} (htakes : kind.Takes ts)
    (h : kind.mismatch? ts = none) :
    kind.Admits ts := by
  have hvalue : kind = .var ∨ kind = .number ∨ kind = .string ∨ kind = .gameObject ∨
      kind = .scriptObject →
      (∃ t, ts = [t]) ∨ ∃ m n, ts = [m, n] ∧ m.is .unaryOp "-" = true ∧ n.kind = .number := by
    intro hkind
    have htakes : Token.IsValue ts := by
      rcases hkind with rfl | rfl | rfl | rfl | rfl <;> exact htakes
    rcases htakes with ⟨t, ht, -⟩ | hnegated
    · exact .inl ⟨t, ht⟩
    · exact .inr hnegated
  cases kind with
  | var =>
    rcases hvalue (by simp) with ⟨t, rfl⟩ | ⟨m, n, rfl, hm, hn⟩
    · exact ⟨t, rfl, by simpa [mismatch?] using h⟩
    · simp [mismatch?] at h
  | number =>
    rcases hvalue (by simp) with ⟨t, rfl⟩ | ⟨m, n, rfl, hm, hn⟩
    · by_cases hvar : t.kind = .var
      · exact .inl ⟨t, rfl, hvar⟩
      · refine .inr (Token.isNumeric_iff.mpr (Option.isSome_iff_ne_none.mpr ?_))
        simpa [mismatch?, hvar] using h
    · exact .inr (.inr ⟨m, n, rfl, hm, hn⟩)
  | string | gameObject | scriptObject =>
    rcases hvalue (by simp) with ⟨t, rfl⟩ | ⟨m, n, rfl, hm, hn⟩
    · simp only [mismatch?, Bool.or_eq_true, beq_iff_eq, ite_eq_left_iff, reduceCtorEq, imp_false,
        Decidable.not_not] at h
      exact h.imp (fun hkind => ⟨t, rfl, hkind⟩) (fun hkind => ⟨t, rfl, hkind⟩)
    · simp [mismatch?] at h
  | _ => exact htakes

theorem literalsFit_of_valueProblems (hvalue : Token.IsValue ts)
    (h : valueProblems objects ts = []) :
    Token.LiteralsFit ts ∧ ∀ t ∈ ts, t.Known objects := by
  unfold valueProblems at h
  rw [List.append_eq_nil_iff, Token.unknownObjects_eq_nil] at h
  refine ⟨?_, h.2⟩
  rcases hvalue with ⟨t, rfl, ht⟩ | ⟨m, n, rfl, hm, hn⟩
  · refine .single fun hnumber => ?_
    simpa [Token.numericLiteral?, hnumber] using h.1
  · refine .negated hm ?_
    simpa [Token.numericLiteral?, hm, hn] using h.1

theorem literalsFit_of_plain (h : ∀ t ∈ ts, t.kind ≠ .number ∧ t.kind ≠ .gameObject ∧
      t.kind ≠ .scriptObject) :
    Token.LiteralsFit ts ∧ ∀ t ∈ ts, t.Known objects := by
  refine ⟨fun a n b hsplit hn => absurd hn (h n (by simp [hsplit])).1, fun t ht library _ => ?_⟩
  obtain ⟨-, hgame, hscript⟩ := h t ht
  exact ⟨fun hc => absurd hc hgame, fun hc => absurd hc hscript⟩

/-- The runs between the commas of a list of values are the values. -/
theorem splitCommas_append {ts rest : List Token} {comma : Token}
    (hts : ∀ t ∈ ts, t.isComma = false) (hcomma : comma.isComma = true) :
    Token.splitCommas (ts ++ comma :: rest) = ts :: Token.splitCommas rest := by
  induction ts with
  | nil => simp [Token.splitCommas, hcomma]
  | cons t ts ih =>
    simp only [List.cons_append, Token.splitCommas, hts t (by simp), Bool.false_eq_true, if_false]
    rw [ih fun u hu => hts u (by simp [hu])]

theorem splitCommas_eq_self {ts : List Token} (hts : ∀ t ∈ ts, t.isComma = false) :
    Token.splitCommas ts = [ts] := by
  induction ts with
  | nil => rfl
  | cons t ts ih =>
    simp only [Token.splitCommas, hts t (by simp), Bool.false_eq_true, if_false]
    rw [ih fun u hu => hts u (by simp [hu])]

theorem not_isComma_of_isValue (h : Token.IsValue ts) : ∀ t ∈ ts, t.isComma = false := by
  have hoperand : ∀ t : Token, t.kind.isOperand = true → t.isComma = false := by
    intro t ht
    rw [Token.isComma, Token.is, Bool.and_eq_false_iff]
    refine .inl ?_
    cases hkind : t.kind <;> first | rfl | (rw [hkind] at ht; cases ht)
  rcases h with ⟨t, rfl, ht⟩ | ⟨m, n, rfl, hm, hn⟩
  · simpa using hoperand t ht
  · simp only [Token.is, Bool.and_eq_true, beq_iff_eq] at hm
    simp [Token.isComma, Token.is, hm, hn]

theorem isValue_of_mem_splitCommas (h : Token.IsValueList ts) :
    ∀ run ∈ Token.splitCommas ts, Token.IsValue run := by
  induction h with
  | last h =>
    rw [splitCommas_eq_self (not_isComma_of_isValue h)]
    simpa using h
  | more h hcomma _ ih =>
    rw [splitCommas_append (not_isComma_of_isValue h) hcomma]
    simpa using ⟨h, ih⟩

theorem literalsFit_of_valueList (hvalues : Token.IsValueList ts)
    (h : (Token.splitCommas ts).flatMap (valueProblems objects) = []) :
    Token.LiteralsFit ts ∧ ∀ t ∈ ts, t.Known objects := by
  induction hvalues with
  | last hvalue =>
    rw [splitCommas_eq_self (not_isComma_of_isValue hvalue)] at h
    exact literalsFit_of_valueProblems hvalue (by simpa using h)
  | @more ts comma rest hvalue hcomma _ ih =>
    rw [splitCommas_append (not_isComma_of_isValue hvalue) hcomma, List.flatMap_cons,
      List.append_eq_nil_iff] at h
    obtain ⟨hfit, hknown⟩ := literalsFit_of_valueProblems hvalue h.1
    obtain ⟨hrest, hothers⟩ := ih h.2
    simp only [Token.isComma, Token.is, Bool.and_eq_true, beq_iff_eq] at hcomma
    refine ⟨(Token.literalsFit_append (by simp [hcomma]) (by simp [Token.is, hcomma]) ts rest).mpr
      ⟨hfit, hrest⟩, ?_⟩
    intro t ht
    rcases List.mem_append.mp ht with ht | ht
    · exact hknown t ht
    · rcases List.mem_cons.mp ht with rfl | ht
      · intro library _
        simp [hcomma]
      · exact hothers t ht

end ParamKind

namespace Parameter

variable {objects : Option ObjectLibrary} {p : Parameter}

def reports (objects : Option ObjectLibrary) (generated : Bool) (p : Parameter) : List Problem :=
  (Session.checkParameter objects generated {} p).problems

/-- A parameter that nothing is reported about is well typed. -/
theorem wellTyped_of_reports (htakes : p.kind.Takes p.tokens) (h : p.reports objects false = []) :
    p.WellTyped objects := by
  unfold reports Session.checkParameter at h
  by_cases hexpression : p.kind = .expression
  · rw [if_pos hexpression] at h
    split at h
    · next order horder =>
      simp only [List.nil_append, List.append_eq_nil_iff] at h
      have hadmits : p.kind.Admits p.tokens := by
        rw [hexpression] at htakes ⊢
        exact htakes
      refine ⟨hadmits, Token.oversized_eq_nil.mp h.1, fun t ht => ?_, fun _ => ⟨order, horder⟩⟩
      by_cases hoperand : t.kind.isOperand = true
      · exact Token.unknownObjects_eq_nil.mp h.2 t (Expression.mem_evalOrder horder ht hoperand)
      · intro library _
        constructor <;> (intro hkind; rw [hkind] at hoperand; exact absurd rfl hoperand)
    · simp at h
  · rw [if_neg hexpression, if_neg (by simp), List.nil_append] at h
    suffices hfit : p.kind.Admits p.tokens ∧ Token.LiteralsFit p.tokens ∧
        ∀ t ∈ p.tokens, t.Known objects from
      ⟨hfit.1, hfit.2.1, hfit.2.2, fun hc => absurd hc hexpression⟩
    unfold ParamKind.problems at h
    split at h
    · next hlist =>
      rw [hlist] at htakes ⊢
      exact ⟨htakes, ParamKind.literalsFit_of_valueList htakes h⟩
    · next hlist =>
      rw [List.append_eq_nil_iff, Option.toList_eq_nil_iff, Option.map_eq_none_iff] at h
      refine ⟨ParamKind.admits_of_mismatch? htakes h.1, ?_⟩
      cases hkind : p.kind <;> rw [hkind] at htakes hexpression hlist
      case labelName =>
        obtain ⟨t, ht, hlabel⟩ := htakes
        exact ParamKind.literalsFit_of_plain (by simp [ht, hlabel])
      case retVar | retVarIf | retVarIfStart =>
        refine ParamKind.literalsFit_of_plain ?_
        rcases htakes with hkeywords | ⟨t, u, htu, ht, hu⟩
        · intro v hv
          simp [hkeywords v hv]
        · simp only [Token.is, Bool.and_eq_true, beq_iff_eq] at hu
          simp [htu, ht, hu]
      case expression => exact absurd rfl hexpression
      case valueList => exact absurd rfl hlist
      all_goals exact ParamKind.literalsFit_of_valueProblems htakes h.2

/-- Nothing is reported about a well typed expression. -/
theorem reports_of_wellTyped (h : p.kind = .expression → p.WellTyped objects) :
    p.reports objects true = [] := by
  unfold reports Session.checkParameter
  by_cases hkind : p.kind = .expression
  · have h := h hkind
    obtain ⟨order, horder⟩ := h.order hkind
    rw [if_pos hkind, horder]
    simp only [List.nil_append, List.append_eq_nil_iff]
    refine ⟨Token.oversized_eq_nil.mpr h.literals, Token.unknownObjects_eq_nil.mpr fun t ht => ?_⟩
    exact h.known t (Expression.mem_of_mem_evalOrder horder ht)
  · rw [if_neg hkind, if_pos rfl]

end Parameter

end GameScript
