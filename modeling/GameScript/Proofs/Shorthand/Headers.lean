import GameScript.Proofs.Shorthand.Sentences

/-!
# What shorthands say

The lines that stand for a shorthand are put together from its parameters. If nothing is wrong with
these, every line is a command (`Statement.IsHeader.plan_said`). The numbers that are computed for a
counted loop are not among the parameters, so they need not fit in 32 bits;
`Statement.ComputesInRange` says that they do.
-/

namespace GameScript

open Token

/-! ## The parameters of a shorthand -/

/-- A parameter that was read from a line and that nothing was reported about. -/
structure Parameter.Checked (objects : Option ObjectLibrary) (p : Parameter) : Prop where
  wellTyped : p.WellTyped objects
  spelled : ∀ t ∈ p.tokens, ∃ b, Spelled b t.kind t.text.toList
  closed : Statement.unterminated? p.tokens = none

theorem Statement.unterminated?_of_subset {ts us : List Token} (h : unterminated? us = none)
    (hsubset : ts ⊆ us) :
    unterminated? ts = none := by
  simp only [unterminated?, List.find?_eq_none] at h ⊢
  exact fun t ht => h t (hsubset ht)

namespace Parameter.Checked

variable {objects : Option ObjectLibrary} {p : Parameter}

theorem written (h : p.Checked objects) {t : Token} (ht : t ∈ p.tokens)
    (hkind : t.kind.isOperand = true) :
    t.Written t.kind := by
  obtain ⟨b, hspelled⟩ := h.spelled t ht
  exact .of_spelled hspelled hkind

theorem sole_var (h : p.Checked objects) (hsole : Sole .var p.tokens) :
    ∃ t, t.Written .var ∧ p.tokens = [t] ∧ p.text = t.text := by
  obtain ⟨t, ht, hkind⟩ := hsole
  have hwritten := h.written (t := t) (by simp [ht]) (by simp [hkind, TokenKind.isOperand])
  exact ⟨t, hkind ▸ hwritten, ht, by simp [Parameter.text, ht, join]⟩

theorem var (h : p.Checked objects) (hkind : p.kind = .var) :
    ∃ t, t.Written .var ∧ p.tokens = [t] ∧ p.text = t.text := by
  have hadmits := h.wellTyped.admits
  rw [hkind] at hadmits
  exact h.sole_var hadmits

theorem number (h : p.Checked objects) (hkind : p.kind = .number) : Scalar p.tokens ∧
    (p.literalNumber? = none → ∃ t, t.Written .var ∧ p.tokens = [t] ∧ p.text = t.text) := by
  have hadmits := h.wellTyped.admits
  rw [hkind] at hadmits
  rcases hadmits with hvar | ⟨n, hn, hnumber⟩ | ⟨m, n, hmn, hm, hnumber⟩
  · obtain ⟨t, ht, htokens, htext⟩ := h.sole_var hvar
    exact ⟨htokens ▸ .var ht, fun _ => ⟨t, ht, htokens, htext⟩⟩
  · have hwritten := h.written (t := n) (by simp [hn]) (by simp [hnumber, TokenKind.isOperand])
    refine ⟨hn ▸ .number (hnumber ▸ hwritten), fun hnone => ?_⟩
    have hfits := h.wellTyped.literals [] n [] hn hnumber
    simp only [Parameter.literalNumber?, Token.literalNumber?, hn, hnumber, if_true] at hnone
    rw [literalFits, hnone] at hfits
    cases hfits
  · have hwritten := h.written (t := n) (by simp [hmn]) (by simp [hnumber, TokenKind.isOperand])
    refine ⟨hmn ▸ .negative hm (hnumber ▸ hwritten), fun hnone => ?_⟩
    have hfits := h.wellTyped.literals [m] n [] hmn hnumber
    simp only [Parameter.literalNumber?, Token.literalNumber?, hmn, hm, hnumber, decide_true,
      Bool.and_self, if_true, Option.map_eq_none_iff] at hnone
    rw [literalFits, hnone] at hfits
    cases hfits

/-- The runs between commas are made of the tokens. -/
theorem mem_of_mem_splitCommas {ts run : List Token} {t : Token} (hrun : run ∈ splitCommas ts)
    (ht : t ∈ run) : t ∈ ts := by
  induction ts generalizing run with
  | nil =>
    simp only [splitCommas, List.mem_singleton] at hrun
    rw [hrun] at ht
    exact ht
  | cons u us ih =>
    simp only [splitCommas] at hrun
    split at hrun
    · rcases List.mem_cons.mp hrun with rfl | hrun
      · cases ht
      · exact List.mem_cons_of_mem _ (ih hrun ht)
    · split at hrun
      · next first runs hruns =>
        rcases List.mem_cons.mp hrun with rfl | hrun
        · rcases List.mem_cons.mp ht with rfl | ht
          · exact List.mem_cons_self
          · exact List.mem_cons_of_mem _ (ih (hruns ▸ List.mem_cons_self) ht)
        · exact List.mem_cons_of_mem _ (ih (hruns ▸ List.mem_cons_of_mem _ hrun) ht)
      · rw [List.mem_singleton.mp hrun] at ht
        rw [List.mem_singleton.mp ht]
        exact List.mem_cons_self

theorem literalsFit_of_mem_splitCommas {ts : List Token} (hvalues : IsValueList ts)
    (h : LiteralsFit ts) :
    ∀ run ∈ splitCommas ts, LiteralsFit run := by
  induction hvalues with
  | last hvalue =>
    rw [ParamKind.splitCommas_eq_self (ParamKind.not_isComma_of_isValue hvalue)]
    simpa using h
  | @more ts comma rest hvalue hcomma _ ih =>
    rw [ParamKind.splitCommas_append (ParamKind.not_isComma_of_isValue hvalue) hcomma]
    simp only [isComma, Token.is, Bool.and_eq_true, beq_iff_eq] at hcomma
    rw [literalsFit_append (by simp [hcomma]) (by simp [Token.is, hcomma])] at h
    simpa using ⟨h.1, ih h.2⟩

theorem items (h : p.Checked objects) (hkind : p.kind = .valueList) : ∀ item ∈ p.items,
    Item item ∧ Statement.unterminated? item = none ∧ LiteralsFit item ∧
    ∀ t ∈ item, t.Known objects := by
  have hadmits := h.wellTyped.admits
  rw [hkind] at hadmits
  have hvalues : IsValueList p.tokens := hadmits
  intro item hitem
  have hrun := (List.mem_filter.mp hitem).1
  have hsubset : item ⊆ p.tokens := fun t ht => mem_of_mem_splitCommas hrun ht
  refine ⟨?_, Statement.unterminated?_of_subset h.closed hsubset,
    literalsFit_of_mem_splitCommas hvalues h.wellTyped.literals item hrun,
    fun t ht => h.wellTyped.known t (hsubset ht)⟩
  exact (ParamKind.isValue_of_mem_splitCommas hvalues item hrun).item fun t ht =>
    h.spelled t (hsubset ht)

end Parameter.Checked

/-! ## Expressions -/

section

variable {small : Prop}

def scalarMarks : List (List Mark) := [[.var], [.number], [.minus, .number]]

variable {ts : List Token}

theorem Token.Scalar.covers (h : Scalar ts) :
    ∃ ms ∈ scalarMarks, List.Forall₂ Mark.Covers ms (ts.map Token.bare) := by
  cases h with
  | var h => exact ⟨[.var], by simp [scalarMarks], .cons h.bare.covers .nil⟩
  | number h => exact ⟨[.number], by simp [scalarMarks], .cons h.bare.covers .nil⟩
  | negative hm hn =>
    refine ⟨[.minus, .number], by simp [scalarMarks], .cons ?_ (.cons hn.bare.covers .nil)⟩
    rw [bare_of_is hm]
    exact Mark.covers_token rfl

theorem formula_scalar (h : Scalar ts) (hfit : small → LiteralsFit ts) :
    Formula small expressionMarks (join ts) := by
  have hall : ∀ ms ∈ scalarMarks, ms ∈ expressionMarks := by
    unfold scalarMarks expressionMarks
    simp
  obtain ⟨ms, hms, hcovers⟩ := h.covers
  refine ⟨⟨ms, hall ms hms, ?_⟩, ?_⟩
  · rw [h.item.scan_eq]
    exact hcovers
  · rw [h.item.scan_eq, literalsFit_bare]
    exact hfit

theorem scan_operation (h : Scalar ts) {k : TokenKind} {u : Token} (hu : u.Written k) {w x : String}
    (hw : w ∈ ["=", "+", "-", "<", ">"])
    (hx : x.toList = (join ts).toList ++ ' ' :: (w.toList ++ ' ' :: u.text.toList)) :
    Token.scan false x.toList = ts.map Token.bare ++ (Mark.op w).token :: [u.bare] := by
  have hapart : Apart (' ' :: (w.toList ++ ' ' :: u.text.toList)) :=
    fun c hc => .inl (by simpa using hc.symm)
  rw [hx, h.scan_append _ hapart, scan_spaced hw, hu.scan_eq]

theorem formula_infix (h : Scalar ts) {k : TokenKind} {u : Token} (hu : u.Written k) {w x : String}
    (hw : w ∈ ["=", "+", "-", "<", ">"])
    (hx : x.toList = (join ts).toList ++ ' ' :: (w.toList ++ ' ' :: u.text.toList))
    (hfit : small → LiteralsFit ts ∧ (k = .number → literalFits false u.text = true))
    {shapes : List (List Mark)}
    (hshapes : ∀ ms, List.Forall₂ Mark.Covers ms (ts.map Token.bare) → ms ∈ scalarMarks →
      ms ++ [.op w, .operand k] ∈ shapes) : Formula small shapes x := by
  obtain ⟨ms, hms, hcovers⟩ := h.covers
  have hscan := scan_operation h hu hw hx
  refine ⟨⟨ms ++ [.op w, .operand k], hshapes ms hcovers hms, ?_⟩, fun hsmall => ?_⟩
  · rw [hscan]
    exact List.rel_append hcovers (.cons (Mark.covers_op w) (.cons hu.bare.covers .nil))
  · obtain ⟨hts, hnumber⟩ := hfit hsmall
    rw [hscan, literalsFit_append (by simp [Mark.token, Mark.op])
      (by simp [Mark.token, Mark.op, Token.is]), literalsFit_bare]
    exact ⟨hts, .single fun hc => hnumber (hu.kind.symm.trans hc)⟩

theorem eq_var_of_covers {ms : List Mark} {t : Token} (ht : t.Written .var)
    (h : List.Forall₂ Mark.Covers ms ([t].map Token.bare)) (hms : ms ∈ scalarMarks) :
    ms = [.var] := by
  simp only [scalarMarks, List.mem_cons, List.not_mem_nil, or_false] at hms
  rcases hms with rfl | rfl | rfl
  · rfl
  · obtain ⟨hcovers, -⟩ := List.forall₂_cons.mp h
    cases hcovers.kind.symm.trans ht.kind
  · cases h.length_eq

theorem literalsFit_var {t : Token} (ht : t.Written .var) : LiteralsFit [t] :=
  .single fun hkind => absurd (ht.kind.symm.trans hkind) (by simp)

/-- A variable and an operand with an operator in between. -/
theorem formula_var_infix {c u : Token} {k : TokenKind} (hc : c.Written .var) (hu : u.Written k)
    {w op : String} (hw : w ∈ ["=", "+", "-", "<", ">"])
    (hop : op.toList = ' ' :: (w.toList ++ [' ']))
    (hfit : small → k = .number → literalFits false u.text = true) {shapes : List (List Mark)}
    (hshape : [.var, .op w, .operand k] ∈ shapes) :
    Formula small shapes (c.text ++ op ++ u.text) := by
  refine formula_infix (.var hc) hu hw (by simp [join, hop]) (fun hsmall =>
    ⟨literalsFit_var hc, hfit hsmall⟩) fun ms hms hmem => ?_
  rw [eq_var_of_covers hc hms hmem]
  exact hshape

theorem literalFits_ofNat {n : Nat} (h : Text.fits32 n = true) :
    literalFits false (ofNat n).text = true := by
  have hbound : n < 0x8000000000000000 := by
    simp only [Text.fits32, Bool.and_eq_true, decide_eq_true_eq] at h
    omega
  have hnumeral : Text.numeral64? (ofNat n).text = some (n : Int) := numeral64?_toString hbound
  simp [literalFits, hnumeral, h]

theorem literalsFit_ofInt {z : Int} (h : Text.fits32 z = true) : LiteralsFit (ofInt z) := by
  cases z with
  | ofNat n => exact .single fun _ => literalFits_ofNat h
  | negSucc n =>
    refine .negated (by decide) ?_
    have hbound : n + 1 < 0x8000000000000000 := by
      simp only [Text.fits32, Bool.and_eq_true, decide_eq_true_eq] at h
      omega
    have hnumeral : Text.numeral64? (ofNat (n + 1)).text = some ((n + 1 : Nat) : Int) :=
      numeral64?_toString hbound
    simp only [literalFits, hnumeral, if_true]
    exact h

end

/-! ## Counted loops -/

namespace Expansion

/-- The numbers that are computed for a loop fit in 32 bits: the size of the step, and the value one
step before the first. -/
def Step.InRange (s : Step) (initial : Parameter) : Prop :=
  ∀ v, s.value = some v → Text.fits32 v.natAbs = true ∧ ∀ a, initial.literalNumber? = some a →
    Text.fits32 (a - v) = true

instance (s : Step) (initial : Parameter) : Decidable (s.InRange initial) :=
  decidable_of_iff ((s.value.all fun v => Text.fits32 v.natAbs &&
    initial.literalNumber?.all fun a => Text.fits32 (a - v)) = true)
    (by simp [Step.InRange, Option.all_eq_true])

/-- The size of the step is the token `u` of the kind `k`. -/
inductive Step.Counts : Step → TokenKind → Token → Prop
  | literal (text : String) (v : Int) : Counts ⟨text, some v⟩ .number (ofNat v.natAbs)
  | var {u : Token} (h : u.Written .var) : Counts ⟨u.text, none⟩ .var u

namespace Step.Counts

variable {s : Step} {k : TokenKind} {u : Token}

theorem written (h : s.Counts k u) : u.Written k := by
  cases h with
  | literal => exact written_ofNat _
  | var h => exact h

theorem magnitude (h : s.Counts k u) : s.magnitude = u.text := by
  cases h <;> rfl

theorem literalFits {initial : Parameter} (h : s.Counts k u) (hrange : s.InRange initial) :
    k = .number → Token.literalFits false u.text = true := by
  cases h with
  | literal text v => exact fun _ => literalFits_ofNat (hrange v rfl).1
  | var h => exact fun hc => by cases hc

end Step.Counts

theorem Step.exists_counts {objects : Option ObjectLibrary} {p : Parameter} (h : p.Checked objects)
    (hkind : p.kind = .number) : ∃ k u, (Step.of p).Counts k u := by
  cases hvalue : p.literalNumber? with
  | some v =>
    rw [Step.of, hvalue]
    exact ⟨_, _, .literal _ v⟩
  | none =>
    obtain ⟨u, hu, -, htext⟩ := (h.number hkind).2 hvalue
    rw [Step.of, hvalue, htext]
    exact ⟨_, _, .var hu⟩

section

variable {objects : Option ObjectLibrary} {small sized : Prop} {e : Setting}
  {initial limit : Parameter} {step : Step} {k : TokenKind} {c i u : Token}

theorem formula_startValue (hinitial : initial.Checked objects) (hkind : initial.kind = .number)
    (hstep : step.Counts k u) (hrange : small → step.InRange initial) :
    Formula small expressionMarks (startValue initial step) := by
  obtain ⟨hscalar, hvar⟩ := hinitial.number hkind
  cases hstep with
  | literal text v =>
    cases ha : initial.literalNumber? with
    | some a =>
      have hstart : startValue initial ⟨text, some v⟩ = join (ofInt (Text.wrap64 (a - v))) := by
        rw [join_ofInt, startValue, ha]
      rw [hstart]
      refine formula_scalar (scalar_ofInt _) fun hsmall => ?_
      have hfits := (hrange hsmall v rfl).2 a ha
      rw [Text.wrap64_of_fits32 hfits]
      exact literalsFit_ofInt hfits
    | none =>
      obtain ⟨t, ht, -, htext⟩ := hvar ha
      have hstart : startValue initial ⟨text, some v⟩ =
          t.text ++ (if Step.descends ⟨text, some v⟩ then " + " else " - ") ++
            (ofNat v.natAbs).text := by
        rw [startValue, ha, htext]
        rfl
      have hfit : small → TokenKind.number = .number →
          literalFits false (ofNat v.natAbs).text = true :=
        fun hsmall _ => literalFits_ofNat (hrange hsmall v rfl).1
      rw [hstart]
      cases Step.descends ⟨text, some v⟩ with
      | true =>
        exact formula_var_infix ht (written_ofNat _) (w := "+") (by simp) (by simp) hfit
          (by simp [expressionMarks, Mark.number])
      | false =>
        exact formula_var_infix ht (written_ofNat _) (w := "-") (by simp) (by simp) hfit
          (by simp [expressionMarks, Mark.number])
  | var hu =>
    have hstart : startValue initial ⟨u.text, none⟩ = join initial.tokens ++ " - " ++ u.text := by
      rw [startValue]
      cases initial.literalNumber? <;> rfl
    rw [hstart]
    refine formula_infix hscalar hu (w := "-") (by simp) (by simp)
      (fun _ => ⟨hinitial.wellTyped.literals, fun hc => by cases hc⟩) fun ms _ hmem => ?_
    simp only [scalarMarks, List.mem_cons, List.not_mem_nil, or_false] at hmem
    rcases hmem with rfl | rfl | rfl <;> simp [expressionMarks, Mark.var]

theorem formula_round (hc : c.Written .var) (hstep : step.Counts k u)
    (hrange : small → step.InRange initial) :
    Formula small expressionMarks (c.text ++ (if step.descends then " - " else " + ") ++
      step.magnitude) := by
  have hfit : small → k = .number → literalFits false u.text = true :=
    fun hsmall => hstep.literalFits (hrange hsmall)
  rw [hstep.magnitude]
  cases hd : step.descends with
  | true =>
    exact formula_var_infix hc hstep.written (w := "-") (by simp) (by simp) hfit
      (by cases hstep <;> simp [expressionMarks, Mark.number, Mark.var])
  | false =>
    exact formula_var_infix hc hstep.written (w := "+") (by simp) (by simp) hfit
      (by cases hstep <;> simp [expressionMarks, Mark.number, Mark.var])

theorem formula_test (hc : c.Written .var) (hi : i.Written .var) (descends : Bool) :
    Formula small testMarks (c.text ++ (if descends then " > " else " < ") ++ i.text) := by
  have hfit : small → TokenKind.var = .number → literalFits false i.text = true :=
    fun _ hc => by cases hc
  cases descends with
  | true =>
    exact formula_var_infix hc hi (w := ">") (by simp) (by simp) hfit
      (by simp [testMarks, Mark.var])
  | false =>
    exact formula_var_infix hc hi (w := "<") (by simp) (by simp) hfit
      (by simp [testMarks, Mark.var])

def lines (x : Expansion) : List String := x.before ++ x.head.toList ++ x.round

theorem counted_said (he : e.grammar = .builtin) (hc : c.Written .var) (hi : i.Written .var)
    (hinitial : initial.Checked objects) (hkind : initial.kind = .number)
    (hlimit : limit.Checked objects) (hlimitKind : limit.kind = .number) (hstep : step.Counts k u)
    (hrange : small → step.InRange initial) :
    ∀ line ∈ (counted c.text initial limit step i.text).lines, Says e small sized line := by
  intro line hline
  simp only [lines, counted, Option.toList_some, List.cons_append, List.nil_append, List.mem_cons,
    List.not_mem_nil, or_false] at hline
  rcases hline with rfl | rfl | rfl | rfl
  · exact says_assignment he hi
      (formula_scalar (hlimit.number hlimitKind).1 fun _ => hlimit.wellTyped.literals)
  · exact says_assignment he hc (formula_startValue hinitial hkind hstep hrange)
  · have hsaid : Says e small sized ("while " ++
        (c.text ++ (if step.descends then " > " else " < ") ++ i.text)) :=
      says_test he (formula_test hc hi step.descends)
    rw [← String.append_assoc, ← String.append_assoc] at hsaid
    exact hsaid
  · have hsaid : Says e small sized
        (c.text ++ " = " ++ (c.text ++ (if step.descends then " - " else " + ") ++
          step.magnitude)) :=
      says_assignment he hc (formula_round hc hstep hrange)
    rw [← String.append_assoc, ← String.append_assoc] at hsaid
    exact hsaid

end

/-! ## Other shorthands -/

section

variable {small sized : Prop} {e : Setting} {c v a : Token}

theorem each_said (he : e.grammar = .builtin) (hv : v.Written .var) (ha : a.Written .var)
    (hc : c.Written .var) :
    ∀ line ∈ (each v.text a.text c.text).lines, Says e small sized line := by
  intro line hline
  simp only [lines, each, Option.toList_some, List.cons_append, List.nil_append, List.mem_cons,
    List.not_mem_nil, or_false] at hline
  rcases hline with rfl | rfl | rfl | rfl
  · exact says_size he hc ha
  · have hmarks : [.var] ∈ testMarks := by simp [testMarks]
    have hformula : Formula small testMarks c.text := by
      refine ⟨⟨[.var], hmarks, ?_⟩, fun _ => ?_⟩ <;> rw [hc.scan_eq]
      · exact .cons hc.bare.covers .nil
      · exact literalsFit_var hc.bare
    exact says_test he hformula
  · exact says_decrement he hc
  · exact says_load he hv ha hc

theorem dim_said (he : e.grammar = .builtin) (ha : a.Written .var) {items : List (List Token)}
    (hitems : ∀ item ∈ items, Item item ∧
      Statement.unterminated? item = none ∧ LiteralsFit item ∧
      ∀ t ∈ item, t.Known e.objects)
    (hsize : sized → items.length < 0x80000000) :
    ∀ line ∈ (dim a.text items).lines, Says e small sized line := by
  have hfits : ∀ n, n ≤ items.length → sized → literalFits false (ofNat n).text = true := by
    intro n hn hsized
    refine literalFits_ofNat ?_
    have hlt := hsize hsized
    simp only [Text.fits32, Bool.and_eq_true, decide_eq_true_eq]
    omega
  intro line hline
  simp only [lines, dim, Option.toList_none, List.append_nil, List.mem_cons, List.mem_map,
    Prod.exists] at hline
  rcases hline with rfl | ⟨item, index, hmem, rfl⟩
  · show Says e small sized (a.text ++ " = array alloc: size=" ++ (ofNat items.length).text)
    exact says_allocation he ha (written_ofNat items.length) (hfits items.length (Nat.le_refl _))
  · obtain ⟨-, hlt, hget⟩ := List.mem_zipIdx hmem
    rw [Nat.zero_add] at hlt
    have hmem : item ∈ items := hget ▸ List.getElem_mem _
    obtain ⟨hitem, hclosed, hliterals, hknown⟩ := hitems item hmem
    show Says e small sized (a.text ++ "[" ++ (ofNat index).text ++ "] = " ++ join item)
    refine says_store he ha (written_ofNat index) hitem hclosed (hfits index (Nat.le_of_lt hlt))
      fun _ => ⟨literalsFit_bare.mpr hliterals, fun t ht => ?_⟩
    obtain ⟨u, hu, rfl⟩ := List.mem_map.mp ht
    exact hknown u hu

end

end Expansion

/-! ## All shorthands -/

namespace Statement

def counting? (s : Statement) : Option (Parameter × Expansion.Step) :=
  if s.form = FormId.forLoop then s.parameters[1]?.map fun initial => (initial, .one)
  else if s.form = FormId.forLoopStep then
    s.parameters[1]?.bind fun initial => s.parameters[3]?.map fun step => (initial, .of step)
  else none

def ComputesInRange (s : Statement) : Prop :=
  ∀ initial step, s.counting? = some (initial, step) → step.InRange initial

def StepsByZero (s : Statement) : Prop :=
  ∃ initial step, s.counting? = some (initial, step) ∧ step.value = some 0

instance (s : Statement) : Decidable s.ComputesInRange :=
  decidable_of_iff ((s.counting?.all fun c => decide (c.2.InRange c.1)) = true)
    (by simp [ComputesInRange, Option.all_eq_true])

instance (s : Statement) : Decidable s.StepsByZero :=
  decidable_of_iff ((s.counting?.any fun c => c.2.value == some 0) = true)
    (by simp [StepsByZero, Option.any_eq_true])

/-- A shorthand that nothing was reported about. -/
structure IsHeader (objects : Option ObjectLibrary) (s : Statement) : Prop where
  shorthand : s.form.isShorthand = true
  kinds : s.parameters.map (·.kind) = s.form.shorthandKinds
  checked : ∀ p ∈ s.parameters, p.Checked objects

variable {e : Setting} {small sized : Prop} {s : Statement}

/-- A fresh variable is a generated loop variable. -/
theorem exists_iterator (names : NameSupply) :
    ∃ n, names.freshVariable.1 = (iterator n).text ∧ names.fresh.1 = iteratorName n :=
  ⟨NameSupply.firstFree names.used names.used.size names.next, rfl, rfl⟩

variable {initial : Parameter} {step : Expansion.Step} {g : Grammar}

theorem IsHeader.isSome_counting? {objects : Option ObjectLibrary} (h : s.IsHeader objects)
    (hform : s.form = FormId.forLoop ∨ s.form = FormId.forLoopStep) :
    s.counting?.isSome = true := by
  have hlength := congrArg List.length h.kinds
  rw [List.length_map] at hlength
  rcases hform with hform | hform <;> rw [hform] at hlength
  · simp [counting?, hform, hlength, FormId.shorthandKinds]
  · obtain ⟨hsecond, hlast⟩ : 1 < s.parameters.length ∧ 3 < s.parameters.length := by
      rw [hlength]; decide
    simp [counting?, hform, hsecond, hlast, FormId.forLoop, FormId.forLoopStep]

/-- A counted loop is planned from its first value and its step. -/
theorem IsHeader.plan_of_counting {objects : Option ObjectLibrary} (h : s.IsHeader objects)
    (hcounting : s.counting? = some (initial, step)) :
    ∃ counter limit rest, s.parameters = counter :: initial :: limit :: rest ∧ counter.kind = .var ∧
      initial.kind = .number ∧ limit.kind = .number ∧
      (step = .one ∨ ∃ p ∈ s.parameters, p.kind = .number ∧ step = .of p) ∧
      ∀ names, s.plan names = planCounted names counter initial limit step := by
  have hkinds := h.kinds
  unfold counting? at hcounting
  split at hcounting
  · next hform =>
    have hshape : s.parameters.map (·.kind) = [.var, .number, .number] := by rw [hkinds, hform]; rfl
    obtain ⟨counter, l, hparameters, hcounter, hl⟩ := List.map_eq_cons_iff.mp hshape
    obtain ⟨first, l, rfl, hinitial, hl⟩ := List.map_eq_cons_iff.mp hl
    obtain ⟨limit, rfl, hlimit⟩ := List.map_eq_singleton_iff.mp hl
    simp only [hparameters, List.getElem?_cons_succ, List.getElem?_cons_zero, Option.map_some,
      Option.some.injEq, Prod.mk.injEq] at hcounting
    obtain ⟨rfl, rfl⟩ := hcounting
    refine ⟨counter, limit, [], hparameters, hcounter, hinitial, hlimit, .inl rfl, fun names => ?_⟩
    simp [plan, hform, hparameters, FormId.forLoop, FormId.dim]
  · split at hcounting
    · next hform =>
      have hshape : s.parameters.map (·.kind) = [.var, .number, .number, .number] := by
        rw [hkinds, hform]; rfl
      obtain ⟨counter, l, hparameters, hcounter, hl⟩ := List.map_eq_cons_iff.mp hshape
      obtain ⟨first, l, rfl, hinitial, hl⟩ := List.map_eq_cons_iff.mp hl
      obtain ⟨limit, l, rfl, hlimit, hl⟩ := List.map_eq_cons_iff.mp hl
      obtain ⟨stride, rfl, hstride⟩ := List.map_eq_singleton_iff.mp hl
      simp only [hparameters, List.getElem?_cons_succ, List.getElem?_cons_zero, Option.map_some,
        Option.bind_some, Option.some.injEq, Prod.mk.injEq] at hcounting
      obtain ⟨rfl, rfl⟩ := hcounting
      refine ⟨counter, limit, [stride], hparameters, hcounter, hinitial, hlimit,
        .inr ⟨stride, by simp [hparameters], hstride, rfl⟩,
        fun names => ?_⟩
      simp [plan, hform, hparameters, FormId.forLoop, FormId.forLoopStep, FormId.dim]
    · cases hcounting

/-- The lines that stand for a counted loop are commands. It is refused if it does not count. -/
theorem IsHeader.plan_counted_said (he : e.grammar = .builtin) (h : s.IsHeader e.objects)
    (hsmall : small → s.ComputesInRange) (names : NameSupply)
    (hcounting : s.counting? = some (initial, step)) :
    (∃ p, s.plan names = .error p ∧ s.StepsByZero) ∨
      ∃ x names', s.plan names = .ok (x, names') ∧
        ∀ line ∈ x.lines, Says e small sized line := by
  obtain ⟨counter, limit, rest, hparameters, hcounter, hinitial, hlimit, hof, hplan⟩ :=
    h.plan_of_counting hcounting
  by_cases hzero : step.value = some 0
  · exact .inl ⟨_, (hplan names).trans (if_pos hzero), initial, step, hcounting, hzero⟩
  obtain ⟨k, u, hcounts⟩ : ∃ k u, step.Counts k u := by
    rcases hof with rfl | ⟨p, hp, hkind, rfl⟩
    · exact ⟨_, _, .literal "1" 1⟩
    · exact Expansion.Step.exists_counts (h.checked p hp) hkind
  obtain ⟨hfirst, hsecond, hthird⟩ : counter ∈ s.parameters ∧ initial ∈ s.parameters ∧
      limit ∈ s.parameters := by
    simp [hparameters]
  obtain ⟨c, hc, -, htext⟩ := (h.checked counter hfirst).var hcounter
  obtain ⟨n, hn, -⟩ := exists_iterator names
  have hcounted : s.plan names = .ok (.counted c.text initial limit step (iterator n).text,
      names.fresh.2) := by
    rw [hplan, planCounted, if_neg hzero, ← htext, ← hn]
    rfl
  exact .inr ⟨_, _, hcounted, Expansion.counted_said he hc (written_iterator n)
    (h.checked initial hsecond) hinitial (h.checked limit hthird) hlimit hcounts
    fun hc => hsmall hc initial _ hcounting⟩

/-- Every line that stands for a shorthand is a command. -/
theorem IsHeader.plan_said (he : e.grammar = .builtin) (h : s.IsHeader e.objects)
    (hsmall : small → s.ComputesInRange) (hsized : sized → ∀ p ∈ s.parameters, p.kind = .valueList →
      p.items.length < 0x80000000) (names : NameSupply) :
    (∃ p, s.plan names = .error p ∧ s.StepsByZero) ∨
      ∃ x names', s.plan names = .ok (x, names') ∧
        ∀ line ∈ x.lines, Says e small sized line := by
  have hvar : ∀ p ∈ s.parameters, p.kind = .var → ∃ t : Token, t.Written .var ∧
      p.text = t.text := by
    intro p hp hkind
    obtain ⟨t, ht, -, htext⟩ := (h.checked p hp).var hkind
    exact ⟨t, ht, htext⟩
  have hkinds := h.kinds
  have hform := h.shorthand
  simp only [FormId.isShorthand, FormId.isLoopShorthand, Bool.or_eq_true, beq_iff_eq] at hform
  rcases hform with hform | ((hform | hform) | hform) | hform
  · -- `dim`
    have hshape : s.parameters.map (·.kind) = [.var, .valueList] := by rw [hkinds, hform]; rfl
    obtain ⟨array, l, hparameters, harray, hl⟩ := List.map_eq_cons_iff.mp hshape
    obtain ⟨list, rfl, hlist⟩ := List.map_eq_singleton_iff.mp hl
    obtain ⟨a, ha, htext⟩ := hvar array (by simp [hparameters]) harray
    refine .inr ⟨.dim a.text list.items, names, ?_, ?_⟩
    · simp [plan, hform, hparameters, htext]
    · exact Expansion.dim_said he ha ((h.checked list (by simp [hparameters])).items hlist)
        fun hc => hsized hc list (by simp [hparameters]) hlist
  · -- `for`
    obtain ⟨⟨initial, step⟩, hcounting⟩ :=
      Option.isSome_iff_exists.mp (h.isSome_counting? (.inl hform))
    exact h.plan_counted_said he hsmall names hcounting
  · -- `for` with a step
    obtain ⟨⟨initial, step⟩, hcounting⟩ :=
      Option.isSome_iff_exists.mp (h.isSome_counting? (.inr hform))
    exact h.plan_counted_said he hsmall names hcounting
  · -- `for each`
    have hshape : s.parameters.map (·.kind) = [.var, .var] := by rw [hkinds, hform]; rfl
    obtain ⟨item, l, hparameters, hitem, hl⟩ := List.map_eq_cons_iff.mp hshape
    obtain ⟨array, rfl, harray⟩ := List.map_eq_singleton_iff.mp hl
    obtain ⟨v, hv, hvtext⟩ := hvar item (by simp [hparameters]) hitem
    obtain ⟨a, ha, hatext⟩ := hvar array (by simp [hparameters]) harray
    obtain ⟨n, hn, -⟩ := exists_iterator names
    have hplan : s.plan names = .ok (.each v.text a.text names.freshVariable.1, names.fresh.2) := by
      simp [plan, hform, hparameters, FormId.forLoop, FormId.forLoopStep, FormId.forEach,
        FormId.dim, hvtext, hatext, NameSupply.freshVariable]
    refine .inr ⟨_, _, hplan, ?_⟩
    rw [hn]
    exact Expansion.each_said he hv ha (written_iterator n)
  · -- `for each` with a counter
    have hshape : s.parameters.map (·.kind) = [.var, .var, .var] := by rw [hkinds, hform]; rfl
    obtain ⟨item, l, hparameters, hitem, hl⟩ := List.map_eq_cons_iff.mp hshape
    obtain ⟨array, l, rfl, harray, hl⟩ := List.map_eq_cons_iff.mp hl
    obtain ⟨counter, rfl, hcounter⟩ := List.map_eq_singleton_iff.mp hl
    obtain ⟨v, hv, hvtext⟩ := hvar item (by simp [hparameters]) hitem
    obtain ⟨a, ha, hatext⟩ := hvar array (by simp [hparameters]) harray
    obtain ⟨c, hc, hctext⟩ := hvar counter (by simp [hparameters]) hcounter
    refine .inr ⟨.each v.text a.text c.text, names, ?_, ?_⟩
    · simp [plan, hform, hparameters, FormId.forLoop, FormId.forLoopStep, FormId.forEach,
        FormId.forEachCounter, FormId.dim, hvtext, hatext, hctext]
    · exact Expansion.each_said he hv ha hc

/-- The parameters of a line are such as their kinds take. -/
theorem read_takes (hg : g.Lawful) (v : Version) (number : Nat) (line : String) {p : Parameter}
    (hp : p ∈ (read g v number line).statement.parameters) :
    p.kind.Takes p.tokens ∧ p.tokens ⊆ Token.significant (Token.tokenize line false) := by
  rcases read_cases g v number line with h | h | h | ⟨commented, r, hr, h⟩ <;> rw [h] at hp
  · cases hp
  · cases hp
  · cases hp
  · exact Recognition.takes hr (hg.lawful _ (Recognition.of_recognise? hr).1) hp

/-- The objects of a command without problems are closed. -/
theorem closed_of_read {v : Version} {number : Nat} {line : String}
    (hcommented : (read g v number line).statement.commented = false)
    (hdiagnostic : (read g v number line).diagnostic = none)
    (hform : (read g v number line).statement.form.isShorthand = true) :
    unterminated? (Token.significant (Token.tokenize line false)) = none := by
  rcases read_cases g v number line with h | h | h | ⟨commented, r, -, h⟩ <;>
    rw [h] at hcommented hdiagnostic hform
  · cases hform
  · cases hform
  · cases hform
  · obtain rfl : commented = false := hcommented
    simp only [Bool.false_eq_true, if_false, Option.map_eq_none_iff, problem?] at hdiagnostic
    split at hdiagnostic
    · cases hdiagnostic
    · assumption

theorem kinds_of_read (hg : g.Lawful) {v : Version} {number : Nat} {line : String}
    (hform : (read g v number line).statement.form.isShorthand = true) :
    (read g v number line).statement.parameters.map (·.kind) =
      (read g v number line).statement.form.shorthandKinds := by
  rcases read_cases g v number line with h | h | h | ⟨commented, r, hr, h⟩ <;> rw [h] at hform ⊢
  · cases hform
  · cases hform
  · cases hform
  · have hlawful := hg.lawful _ (Recognition.of_recognise? hr).1
    exact (Fit.kinds_parameters (Recognition.binds hr).length).trans (hlawful.shorthand hform)

/-- A shorthand that nothing is reported about. -/
theorem isHeader_of_read (hg : g.Lawful) {v : Version} {number : Nat} {line : String}
    {objects : Option ObjectLibrary}
    (hcommented : (read g v number line).statement.commented = false)
    (hdiagnostic : (read g v number line).diagnostic = none)
    (hform : (read g v number line).statement.form.isShorthand = true)
    (hreports : ∀ p ∈ (read g v number line).statement.parameters, p.reports objects false = []) :
    (read g v number line).statement.IsHeader objects := by
  refine ⟨hform, kinds_of_read hg hform, fun p hp => ?_⟩
  obtain ⟨htakes, hsubset⟩ := read_takes hg v number line hp
  exact ⟨Parameter.wellTyped_of_reports htakes (hreports p hp),
    fun t ht => Token.significant_spelled line t (hsubset ht),
    unterminated?_of_subset (closed_of_read hcommented hdiagnostic hform) hsubset⟩

end Statement

end GameScript
