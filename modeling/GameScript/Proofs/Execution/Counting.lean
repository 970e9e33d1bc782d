import GameScript.Proofs.Execution.Arithmetic
import GameScript.Proofs.Execution.Rounds
import GameScript.Proofs.Shorthand.Loops

/-!
# What the lines of a counted loop compute

The header of a counted loop with literal numbers gives its counter, the first value, the limit and
the step (`Statement.CountsFrom`). The lines that it is expanded to are read back, and computed on a
store of numbers they do what the loop needs (`IsHeader.counts`): the limit is kept in a variable,
the counter starts one step early, the head asks whether the limit is ahead of the counter, and a
round moves the counter by the step.
-/

namespace GameScript

open Token

/-! ## The statements of a counted loop -/

section

variable {e : Setting} {number : Nat} {x : String} {u : Statement} {v : Token}

/-- A line that sets a variable is read as such, and its formula is evaluated as it stands there. -/
theorem Generated.assigns_of_readLine (he : e.grammar = .builtin) (hv : v.Written .var)
    (hx : ∃ ms ∈ expressionMarks, List.Forall₂ Mark.Covers ms (Token.scan false x.toList))
    {value : (String → Int) → Int}
    (heval : ∀ store, Expression.eval? store (Token.scan false x.toList) = some (value store))
    (hu : readLine e number (v.text ++ " = " ++ x) = .ok u) : u.Assigns v.value value := by
  obtain ⟨ms, hms, hcovers⟩ := hx
  obtain ⟨u', hu', htells⟩ := (Sentence.assignment hv hms rfl hcovers).exists_readLine he number
  obtain rfl := Except.ok.inj (hu'.symm.trans hu)
  exact htells.assigns hcovers.length_eq heval

theorem Generated.tests_of_readLine (he : e.grammar = .builtin)
    (hx : ∃ ms ∈ testMarks, List.Forall₂ Mark.Covers ms (Token.scan false x.toList))
    {test : (String → Int) → Bool}
    (heval : ∀ store, Expression.eval? store (Token.scan false x.toList) =
      some (if test store then 1 else 0))
    (hu : readLine e number ("while " ++ x) = .ok u) : u.Tests test := by
  obtain ⟨ms, hms, hcovers⟩ := hx
  obtain ⟨u', hu', htells⟩ := (Sentence.test hms rfl hcovers).exists_readLine he number
  obtain rfl := Except.ok.inj (hu'.symm.trans hu)
  exact htells.tests hcovers.length_eq heval

theorem Generated.assigns_literal (he : e.grammar = .builtin) (hv : v.Written .var)
    {ts : List Token} (hts : Scalar ts) {n : Int} (hn : literalNumber? ts = some n)
    (hu : readLine e number (v.text ++ " = " ++ join ts) = .ok u) :
    u.Assigns v.value fun _ => n := by
  have hformula : Formula False expressionMarks (join ts) := formula_scalar hts fun hc => hc.elim
  refine assigns_of_readLine he hv hformula.covers (fun store => ?_) hu
  rw [hts.item.scan_eq, Expression.eval?_bare]
  exact Expression.eval?_of_literalNumber? hn

theorem Expansion.Step.descends_literal (text : String) (step : Int) :
    (Step.mk text (some step)).descends = decide (step < 0) := rfl

/-- A variable and an operand with an operator in between have the value that the operator gives. -/
theorem Expression.eval?_operation {store : String → Int} {c u : Token} {k : TokenKind}
    (hc : c.Written .var) (hu : u.Written k) {w : String} (hw : w ∈ ["+", "-", "<", ">"])
    (hx : x = c.text ++ " " ++ w ++ " " ++ u.text) {b n : Int}
    (hb : Expression.operand? store u.bare = some b)
    (hn : Expression.combine? w (store c.value) b = some n) :
    Expression.eval? store (Token.scan false x.toList) = some n := by
  have hscan : Token.scan false x.toList = [c].map Token.bare ++ (Mark.op w).token :: [u.bare] :=
    scan_operation (.var hc) hu (List.mem_cons_of_mem _ hw) (by simp [hx, join])
  have ha : Expression.operand? store c.bare = some (store c.value) := by
    simp [Expression.operand?, hc.kind]
  obtain ⟨level, hlevel⟩ : ∃ level, Expression.binaryLevel? w = some level := by
    simp only [List.mem_cons, List.not_mem_nil, or_false] at hw
    rcases hw with rfl | rfl | rfl | rfl <;> exact ⟨_, rfl⟩
  rw [hscan]
  exact Expression.eval?_infix ha hb rfl hlevel hn

theorem Generated.assigns_step (he : e.grammar = .builtin) {c : Token} (hc : c.Written .var)
    {text : String} {step : Int} (hstep : step.natAbs < 0x8000000000000000)
    (hu : readLine e number (c.text ++ " = " ++
      (c.text ++ (if Expansion.Step.descends ⟨text, some step⟩ then " - " else " + ") ++
        Expansion.Step.magnitude ⟨text, some step⟩)) = .ok u) :
    u.Assigns c.value fun store => store c.value + step := by
  have hformula := @Expansion.formula_round False ⟨.number, []⟩ ⟨text, some step⟩ _ c _ hc
    (.literal text step) fun hc => hc.elim
  have hnumber : ∀ store, Expression.operand? store (ofNat step.natAbs).bare =
      some (step.natAbs : Int) := by
    intro store
    have hnumeral : Text.numeral64? (ofNat step.natAbs).text = some (step.natAbs : Int) :=
      numeral64?_toString hstep
    simp only [Expression.operand?, kind_bare, text_bare, (written_ofNat step.natAbs).kind,
      hnumeral]
    rfl
  refine assigns_of_readLine he hc hformula.covers (fun store => ?_) hu
  rw [Expansion.Step.descends_literal]
  by_cases hneg : step < 0
  · refine Expression.eval?_operation hc (written_ofNat step.natAbs) (w := "-") (by simp) ?_
      (hnumber store) ?_
    · simp only [hneg, decide_true, if_true]
      simp only [String.append_assoc]
      rfl
    · rw [Expression.combine?_sub]
      exact congrArg some (by omega)
  · refine Expression.eval?_operation hc (written_ofNat step.natAbs) (w := "+") (by simp) ?_
      (hnumber store) ?_
    · simp only [hneg, decide_false]
      simp only [String.append_assoc]
      rfl
    · rw [Expression.combine?_add]
      exact congrArg some (by omega)

/-- The head of a counted loop asks whether the limit is ahead. -/
theorem Generated.tests_ahead (he : e.grammar = .builtin) {c i : Token} (hc : c.Written .var)
    (hi : i.Written .var) {text : String} {step : Int}
    (hu : readLine e number ("while " ++
      (c.text ++ (if Expansion.Step.descends ⟨text, some step⟩ then " > " else " < ") ++ i.text)) =
        .ok u) :
    u.Tests fun store => Ahead step (store i.value) (store c.value) := by
  have hformula :=
    @Expansion.formula_test False c i hc hi (Expansion.Step.descends ⟨text, some step⟩)
  refine tests_of_readLine he hformula.covers (fun store => ?_) hu
  have hlimit : Expression.operand? store i.bare = some (store i.value) := by
    simp [Expression.operand?, hi.kind]
  rw [Expansion.Step.descends_literal]
  by_cases hneg : step < 0
  · refine Expression.eval?_operation hc hi (w := ">") (by simp) ?_ hlimit ?_
    · simp only [hneg, decide_true, if_true]
      simp only [String.append_assoc]
      rfl
    · simp [Expression.combine?, Ahead, hneg]
  · refine Expression.eval?_operation hc hi (w := "<") (by simp) ?_ hlimit ?_
    · simp only [hneg, decide_false]
      simp only [String.append_assoc]
      rfl
    · simp [Expression.combine?, Ahead, hneg]

end

theorem Token.literalNumber?_ofInt {z : Int} (h : z.natAbs < 0x8000000000000000) :
    literalNumber? (ofInt z) = some z := by
  cases z with
  | ofNat n =>
    have hn : Text.numeral64? (ofNat n).text = some (n : Int) := numeral64?_toString h
    show (if (ofNat n).kind = .number then Text.numeral64? (ofNat n).text else none) = _
    rw [hn]
    rfl
  | negSucc n =>
    have hn : Text.numeral64? (ofNat (n + 1)).text = some ((n + 1 : Nat) : Int) :=
      numeral64?_toString h
    show (if Mark.minus.token.is .unaryOp "-" && (ofNat (n + 1)).kind = .number then
      (Text.numeral64? (ofNat (n + 1)).text).map Int.neg else none) = _
    rw [hn]
    rfl

theorem Token.fits32_of_literalNumber? {ts : List Token} {n : Int} (hfit : LiteralsFit ts)
    (h : literalNumber? ts = some n) :
    Text.fits32 n = true := by
  rcases ts with _ | ⟨t, _ | ⟨u, _ | ⟨v, ts⟩⟩⟩
  · cases h
  · simp only [literalNumber?] at h
    split at h
    · next hkind =>
      have hfits := hfit [] t [] rfl hkind
      simp only [literalFits, h] at hfits
      exact hfits
    · cases h
  · simp only [literalNumber?] at h
    split at h
    · next hshape =>
      simp only [Bool.and_eq_true, decide_eq_true_eq] at hshape
      obtain ⟨k, hk, rfl⟩ := Option.map_eq_some_iff.mp h
      have hfits := hfit [t] u [] rfl hshape.2
      have hminus : endsWithMinus false [t] = true := hshape.1
      simp only [literalFits, hk, hminus] at hfits
      exact hfits
    · cases h
  · cases h

/-- The statements that stand for a loop with literal numbers: two assignments, the head of the
loop, and the assignment that starts a round. -/
inductive Generated.Counts (counter iterator : String) (a b step : Int) : Generated → Prop
  | intro {limit start head round : Statement} (hlimit : limit.Assigns iterator fun _ => b)
      (hstart : start.Assigns counter fun _ => a - step)
      (hhead : head.Tests fun store => Ahead step (store iterator) (store counter))
      (hround : round.Assigns counter fun store => store counter + step) :
      Counts counter iterator a b step ⟨[limit, start], some head, [round]⟩

theorem Generated.IsRead.counts {e : Setting} {x : Generated} {number : Nat}
    {initial limit : Parameter} {objects : Option ObjectLibrary} {c i : Token} {text : String}
    {a b step : Int}
    (hread : x.IsRead e number (.counted c.text initial limit ⟨text, some step⟩ i.text))
    (he : e.grammar = .builtin) (hc : c.Written .var) (hi : i.Written .var)
    (hlimit : limit.Checked objects) (hkind : limit.kind = .number)
    (ha : initial.literalNumber? = some a) (hb : limit.literalNumber? = some b)
    (hstep : step.natAbs < 0x8000000000000000) (hstart : (a - step).natAbs < 0x8000000000000000) :
    Generated.Counts c.value i.value a b step x := by
  obtain ⟨before, head, round⟩ := x
  obtain ⟨hbefore, hhead, hround⟩ := hread
  simp only [Expansion.counted] at hbefore hhead hround
  obtain ⟨l, before₁, hl, hbefore₁, rfl⟩ := List.forall₂_cons_left_iff.mp hbefore
  obtain ⟨f, before₂, hf, hbefore₂, rfl⟩ := List.forall₂_cons_left_iff.mp hbefore₁
  obtain rfl := List.forall₂_nil_left_iff.mp hbefore₂
  obtain ⟨r, round₁, hr, hround₁, rfl⟩ := List.forall₂_cons_left_iff.mp hround
  obtain rfl := List.forall₂_nil_left_iff.mp hround₁
  cases head with
  | none => cases hhead
  | some w =>
    obtain ⟨hw, -⟩ := List.forall₂_cons.mp hhead
    have hfirst : Expansion.startValue initial ⟨text, some step⟩ = join (ofInt (a - step)) := by
      rw [join_ofInt, ← Text.wrap64_of_natAbs_lt hstart, Expansion.startValue, ha]
    rw [hfirst] at hf
    refine .intro ?_ ?_ ?_ ?_
    · exact assigns_literal he hi (hlimit.number hkind).1 hb hl
    · exact assigns_literal he hc (scalar_ofInt _) (literalNumber?_ofInt hstart) hf
    · exact tests_ahead he hc hi (by simpa only [String.append_assoc] using hw)
    · exact assigns_step he hc hstep (by simpa only [String.append_assoc] using hr)

/-! ## The header -/

namespace Statement

/-- The header of a loop that counts with literal numbers: its counter, the first value, the limit
and the step. -/
structure CountsFrom (s : Statement) (name : String) (a b step : Int) : Prop where
  counter : (s.parameters[0]?.bind Parameter.soleVariable?).map Token.value = some name
  first : s.counting?.bind (·.1.literalNumber?) = some a
  limit : s.parameters[2]?.bind Parameter.literalNumber? = some b
  step : s.counting?.bind (·.2.value) = some step

instance (s : Statement) (name : String) (a b step : Int) :
    Decidable (s.CountsFrom name a b step) :=
  decidable_of_iff ((s.parameters[0]?.bind Parameter.soleVariable?).map Token.value = some name ∧
    s.counting?.bind (·.1.literalNumber?) = some a ∧
    s.parameters[2]?.bind Parameter.literalNumber? = some b ∧
    s.counting?.bind (·.2.value) = some step)
    ⟨fun h => ⟨h.1, h.2.1, h.2.2.1, h.2.2.2⟩, fun h => ⟨h.counter, h.first, h.limit, h.step⟩⟩

variable {e : Setting} {s : Statement} {name : String} {a b step : Int}

theorem CountsFrom.exists_var (h : s.CountsFrom name a b step) :
    ∃ c ∈ s.vars, c.value = name ∧ ∃ counter rest, s.parameters = counter :: rest ∧
      counter.tokens = [c] := by
  obtain ⟨c, hc, hvalue⟩ := Option.map_eq_some_iff.mp h.counter
  obtain ⟨counter, hcounter, hsole⟩ := Option.bind_eq_some_iff.mp hc
  obtain ⟨rest, hparameters⟩ : ∃ rest, s.parameters = counter :: rest := by
    cases hp : s.parameters with
    | nil => simp [hp] at hcounter
    | cons p rest => exact ⟨rest, by simpa [hp] using hcounter⟩
  unfold Parameter.soleVariable? at hsole
  split at hsole
  · next t htokens =>
    split at hsole
    · next hkind =>
      obtain rfl := Option.some.inj hsole
      refine ⟨t, ?_, hvalue, counter, rest, hparameters, htokens⟩
      simp [vars, hparameters, htokens, hkind]
    · cases hsole
  · cases hsole

theorem CountsFrom.isLoopShorthand (h : s.CountsFrom name a b step) :
    s.form.isLoopShorthand = true := by
  obtain ⟨c, hcounting, -⟩ := Option.bind_eq_some_iff.mp h.first
  unfold counting? at hcounting
  split at hcounting
  · next hform => rw [hform]; rfl
  · split at hcounting
    · next hform => rw [hform]; rfl
    · cases hcounting

theorem CountsFrom.not_stepsByZero (h : s.CountsFrom name a b step) (hstep : step ≠ 0) :
    ¬s.StepsByZero := by
  rintro ⟨initial, stride, hcounting, hzero⟩
  have hvalue := h.step
  rw [hcounting, Option.bind_some] at hvalue
  exact hstep (Option.some.inj (hvalue.symm.trans hzero))

/-- The lines that stand for such a loop count. -/
theorem IsHeader.counts (he : e.grammar = .builtin) (h : s.IsHeader e.objects)
    (hcounts : s.CountsFrom name a b step) (hstep : step ≠ 0) {names names' : NameSupply}
    {y : Expansion} {x : Generated} {number : Nat} (hplan : s.plan names = .ok (y, names'))
    (hread : x.IsRead e number y) :
    names' = names.fresh.2 ∧ Generated.Counts name names.fresh.1 a b step x := by
  obtain ⟨⟨initial, stride⟩, hcounting, ha⟩ := Option.bind_eq_some_iff.mp hcounts.first
  obtain ⟨counter, limit, rest, hparameters, hcounter, hinitial, hlimit, hof, hplans⟩ :=
    h.plan_of_counting hcounting
  have hchecked : ∀ p ∈ s.parameters, p.Checked e.objects := h.checked
  have hb : limit.literalNumber? = some b := by simpa [hparameters] using hcounts.limit
  obtain ⟨text, hstride⟩ : ∃ text, stride = ⟨text, some step⟩ := by
    have hvalue := hcounts.step
    rw [hcounting] at hvalue
    exact ⟨stride.text, by cases stride; simp_all⟩
  -- The literals fit in 32 bits, so that the computed ones are read back.
  have hfits : Text.fits32 a = true ∧ Text.fits32 step = true := by
    refine ⟨fits32_of_literalNumber? (hchecked initial (by simp [hparameters])).wellTyped.literals
      ha, ?_⟩
    rcases hof with rfl | ⟨p, hp, -, rfl⟩
    · cases hstride
      rfl
    · exact fits32_of_literalNumber? (hchecked p hp).wellTyped.literals
        (congrArg Expansion.Step.value hstride)
  simp only [Text.fits32, Bool.and_eq_true, decide_eq_true_eq] at hfits
  obtain ⟨c, -, hname, counter', rest', hparameters', htokens⟩ := hcounts.exists_var
  obtain ⟨rfl, -⟩ := List.cons.inj (hparameters.symm.trans hparameters')
  obtain ⟨c', hc, htokens', htext⟩ := (hchecked counter (by simp [hparameters])).var hcounter
  obtain ⟨rfl, -⟩ := List.cons.inj (htokens.symm.trans htokens')
  obtain ⟨n, hn, hiterator⟩ := exists_iterator names
  have hplanned : s.plan names =
      .ok (.counted counter.text initial limit stride names.freshVariable.1, names.fresh.2) := by
    rw [hplans, planCounted, if_neg (by rw [hstride]; simpa using hstep)]
    rfl
  obtain ⟨rfl, rfl⟩ := Prod.mk.inj (Except.ok.inj (hplanned.symm.trans hplan))
  refine ⟨rfl, ?_⟩
  rw [htext, hn, hstride] at hread
  rw [← hname, hiterator, ← value_iterator]
  exact hread.counts he hc (written_iterator n) (hchecked limit (by simp [hparameters])) hlimit ha
    hb (by omega) (by omega)

end Statement

end GameScript
