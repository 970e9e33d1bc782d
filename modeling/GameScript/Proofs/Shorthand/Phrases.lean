import GameScript.Proofs.Statement.Samples
import GameScript.Proofs.Token.Scan
import GameScript.Session

/-!
# Phrases

The lines that stand for shorthands are put together from a few phrases: variables, numbers, values,
operators between blanks, and fixed words. Each phrase is cut into its tokens again, whatever
follows it.
-/

namespace GameScript

def Mark.token (m : Mark) : Token := ⟨m.kind, 0, 0, m.text⟩

theorem Mark.covers_token {m : Mark} (h : m.kind.isOperand = false) : m.Covers m.token :=
  ⟨rfl, fun _ => rfl, fun hc => by rw [h] at hc; cases hc⟩

namespace Token

/-! ## Operands -/

/-- The token is an operand of the kind `k`, as it is cut from a line. -/
structure Written (k : TokenKind) (t : Token) : Prop where
  kind : t.kind = k
  operand : k.isOperand = true
  spelled : ∀ b, Spelled b k t.text.toList

namespace Written

variable {k : TokenKind} {t : Token}

theorem of_spelled {b : Bool} (h : Spelled b t.kind t.text.toList)
    (hkind : t.kind.isOperand = true) :
    t.Written t.kind :=
  ⟨rfl, hkind, h.of_isOperand hkind⟩

theorem bare (h : t.Written k) : t.bare.Written k := ⟨h.kind, h.operand, h.spelled⟩

theorem looksLikeValue (h : t.Written k) : looksLikeValue t.text = true := by
  have hspelled := h.spelled false
  have hkind := h.operand
  generalize hcs : t.text.toList = cs at hspelled
  unfold GameScript.looksLikeValue
  rw [hcs]
  cases hspelled with
  | @number digits hne hdigits =>
    obtain ⟨d, ds, rfl⟩ := List.exists_cons_of_ne_nil hne
    have hd := hdigits d (by simp)
    split <;> simp_all
  | null =>
    have htext : t.text = "null" := String.toList_inj.mp hcs
    simp [htext]
  | @symbol _ w _ hop =>
    rcases operatorKind_cases false w with hw | hw <;> rw [hop, hw] at hkind <;> cases hkind
  | keyword | label | wordOperator | text | blank => cases hkind
  | _ => rfl

theorem covers (h : t.Written k) : (Mark.operand k).Covers t :=
  ⟨h.kind, fun hc => absurd (h.operand.symm.trans hc) (by simp), fun _ => h.looksLikeValue⟩

theorem nonempty (h : t.Written k) : t.text.toList ≠ [] := by
  intro hc
  have hlooks := h.looksLikeValue
  rw [GameScript.looksLikeValue, hc] at hlooks
  cases hlooks

theorem endsOperand (h : t.Written k) : t.endsOperand = true := by
  have hkind := h.operand
  rw [← h.kind] at hkind
  unfold Token.endsOperand
  split <;> simp_all [TokenKind.isOperand]

/-- Variables and numbers have no closing mark. -/
theorem not_isOpen (h : t.Written k) (hk : k = .var ∨ k = .number) : ¬t.isOpen = true := by
  rw [isOpen, h.kind]
  rcases hk with rfl | rfl <;> simp

/-- An operand is cut from a text that goes on apart from it. -/
theorem scan_append (h : t.Written k) (rest : List Char) (hapart : Apart rest)
    (hend : t.isOpen = true → rest = []) (b : Bool) :
    scan b (t.text.toList ++ rest) = t.bare :: scan true rest := by
  have hall : ∀ k : TokenKind, k.isOperand = true → k.isSignificant = true ∧ k.isOperator = false ∧
      k ≠ .text := by
    intro k
    cases k <;> decide
  obtain ⟨hsignificant, hoperator, htext⟩ := hall t.kind (by rw [h.kind]; exact h.operand)
  have hlexeme : lexeme b (t.text.toList ++ rest) = (t.kind, t.text.toList.length) :=
    lexeme_of_apart (h.kind ▸ h.spelled b) hsignificant hoperator (fun hc => absurd hc htext)
      hapart hend
  rw [Token.scan_append h.nonempty hsignificant hlexeme, h.endsOperand]

theorem scan_eq (h : t.Written k) (b : Bool) : scan b t.text.toList = [t.bare] := by
  have hscan := h.scan_append [] (by simp [Apart]) (fun _ => rfl) b
  rwa [List.append_nil, scan_nil] at hscan

end Written

/-! ## Numbers -/

def ofNat (n : Nat) : Token := ⟨.number, 0, 0, toString n⟩

theorem written_ofNat (n : Nat) : (ofNat n).Written .number := by
  refine ⟨rfl, rfl, fun b => ?_⟩
  have htext : (ofNat n).text.toList = Nat.toDigits 10 n := by simp [ofNat, Nat.repr]
  rw [htext]
  exact .number Nat.toDigits_ne_nil fun c hc =>
    Nat.isDigit_of_mem_toDigits (by decide) (by decide) hc

def ofInt : Int → List Token
  | .ofNat n => [ofNat n]
  | .negSucc n => [Mark.minus.token, ofNat (n + 1)]

theorem numeral64?_toString {n : Nat} (h : n < 0x8000000000000000) :
    Text.numeral64? (toString n) = some (n : Int) := by
  have hvalue : Text.digitsValue (Nat.toDigits 10 n) = n := Nat.ofDigitChars_ten_toDigits
  have hdigits : (Nat.toDigits 10 n).all Char.isDigit = true :=
    List.all_eq_true.mpr fun c hc => Nat.isDigit_of_mem_toDigits (by decide) (by decide) hc
  simp [Text.numeral64?, Text.boundedNumeral?, Text.numeral?, hvalue, hdigits, h,
    Nat.toDigits_ne_nil]

/-! ## Names of loop variables -/

def iterator (n : Nat) : Token := ⟨.var, 0, 0, "$" ++ iteratorName n⟩

theorem written_iterator (n : Nat) : (iterator n).Written .var := by
  refine ⟨rfl, rfl, fun b => ?_⟩
  have htext : (iterator n).text.toList = '$' :: (iteratorName n).toList := by simp [iterator]
  rw [htext]
  refine .var ?_ fun c hc => ?_
  · simp [iteratorName, reservedMark]
  · simp only [iteratorName, reservedMark, String.toList_append, List.mem_append] at hc
    rcases hc with (hc | hc) | hc
    · have hall : "__".toList.all isNameChar = true := by decide
      exact List.all_eq_true.mp hall c hc
    · have hall : "msci_iterator".toList.all isNameChar = true := by decide
      exact List.all_eq_true.mp hall c hc
    · have hdigit : c.isDigit = true :=
        Nat.isDigit_of_mem_toDigits (b := 10) (n := n) (by decide) (by decide) (by simpa [Nat.repr]
          using hc)
      simp [isNameChar, Char.isAlphanum, hdigit]

/-! ## Values -/

theorem bare_of_is {m : Token} {kind : TokenKind} {text : String} (h : m.is kind text = true) :
    m.bare = (Mark.mk kind text).token := by
  simp only [Token.is, Bool.and_eq_true, beq_iff_eq] at h
  simp [Token.bare, Mark.token, h]

/-- A number does not start like an arrow or a name. -/
theorem Written.head_digit {n : Token} (h : n.Written .number) :
    ∃ d ds, n.text.toList = d :: ds ∧ d.isDigit = true := by
  have hshaped := (h.spelled false).shaped h.kind rfl
  rw [Shaped, h.kind] at hshaped
  obtain ⟨d, ds, hds, hd⟩ := hshaped
  exact ⟨d, ds, hds, hd⟩

theorem Written.head_dollar {v : Token} (h : v.Written .var) :
    ∃ name, v.text.toList = '$' :: name := by
  have hshaped := (h.spelled false).shaped h.kind rfl
  rw [Shaped, h.kind] at hshaped
  exact hshaped

theorem scan_symbol {b : Bool} {w : String} {rest : List Char} (hw : w ∈ symbolOperators)
    (hequals : w ∈ ["=", "!", "<", ">"] → rest.head? ≠ some '=')
    (harrow : w = "-" → rest.head? ≠ some '>')
    (hbracket : w = "[" → scriptObject? ('[' :: rest) = none) :
    scan b (w.toList ++ rest) = (Mark.mk (operatorKind b w) w).token ::
      scan (Mark.mk (operatorKind b w) w).token.endsOperand rest := by
  have hne : ∀ w ∈ symbolOperators, w.toList ≠ [] := by decide
  have hsignificant : (operatorKind b w).isSignificant = true := by
    rcases operatorKind_cases b w with h | h <;> rw [h] <;> rfl
  have hlexeme := lexeme_symbol hw (operator?_symbol (b := b) hw hequals harrow hbracket)
  exact scan_append (t := (Mark.mk (operatorKind b w) w).token) (hne w hw) hsignificant hlexeme

theorem scan_minus {n : Token} (hn : n.Written .number) (rest : List Char) :
    scan false ('-' :: (n.text.toList ++ rest)) =
      Mark.minus.token :: scan false (n.text.toList ++ rest) := by
  obtain ⟨d, ds, hds, hd⟩ := hn.head_digit
  have harrow : (n.text.toList ++ rest).head? ≠ some '>' := by
    rw [hds]
    simp only [List.cons_append, List.head?_cons, ne_eq, Option.some.injEq]
    exact ne_of_class hd rfl
  exact scan_symbol (w := "-") (by decide) (fun hc => absurd hc (by decide)) (fun _ => harrow)
    fun hc => absurd hc (by decide)

inductive Scalar : List Token → Prop
  | var {t : Token} (h : t.Written .var) : Scalar [t]
  | number {n : Token} (h : n.Written .number) : Scalar [n]
  | negative {m n : Token} (hm : m.is .unaryOp "-" = true) (hn : n.Written .number) : Scalar [m, n]

inductive Item : List Token → Prop
  | operand {k : TokenKind} {t : Token} (h : t.Written k) : Item [t]
  | negative {m n : Token} (hm : m.is .unaryOp "-" = true) (hn : n.Written .number) : Item [m, n]

theorem IsValue.item {ts : List Token} (h : IsValue ts)
    (hspelled : ∀ t ∈ ts, ∃ b, Spelled b t.kind t.text.toList) : Item ts := by
  rcases h with ⟨t, rfl, ht⟩ | ⟨m, n, rfl, hm, hn⟩
  · obtain ⟨b, hb⟩ := hspelled t (by simp)
    exact .operand (.of_spelled hb ht)
  · obtain ⟨b, hb⟩ := hspelled n (by simp)
    exact .negative hm (hn ▸ .of_spelled hb (by rw [hn]; rfl))

theorem Scalar.item {ts : List Token} (h : Scalar ts) : Item ts := by
  cases h with
  | var h => exact .operand h
  | number h => exact .operand h
  | negative hm hn => exact .negative hm hn

theorem scalar_ofInt (n : Int) : Scalar (ofInt n) := by
  cases n with
  | ofNat n => exact .number (written_ofNat n)
  | negSucc n => exact .negative (by decide) (written_ofNat (n + 1))

theorem join_negative {m n : Token} (hm : m.is .unaryOp "-" = true) :
    (join [m, n]).toList = '-' :: n.text.toList := by
  simp only [Token.is, Bool.and_eq_true, beq_iff_eq] at hm
  simp [join, spacing, hugsRight, hm]

theorem join_ofInt (n : Int) : join (ofInt n) = toString n := by
  cases n with
  | ofNat n => rfl
  | negSucc n =>
    rw [← String.toList_inj, ofInt, join_negative (by decide)]
    simp only [ofNat, toString, Int.repr, String.toList_append]
    rfl

/-- A value is cut from a text that goes on apart from it. -/
theorem Item.scan_append {ts : List Token} (h : Item ts) (rest : List Char) (hapart : Apart rest)
    (hend : ∀ t ∈ ts, t.isOpen = true → rest = []) :
    scan false ((join ts).toList ++ rest) = ts.map Token.bare ++ scan true rest := by
  cases h with
  | operand h => exact h.scan_append rest hapart (hend _ (by simp)) false
  | negative hm hn =>
    have hnumber :=
      hn.scan_append rest hapart (fun hc => absurd hc (hn.not_isOpen (.inr rfl))) false
    rw [join_negative hm, List.cons_append, scan_minus hn, hnumber]
    simp only [List.map_cons, bare_of_is hm]
    rfl

theorem Item.scan_eq {ts : List Token} (h : Item ts) :
    scan false (join ts).toList = ts.map Token.bare := by
  have hscan := h.scan_append [] (by simp [Apart]) fun _ _ _ => rfl
  rwa [List.append_nil, scan_nil, List.append_nil] at hscan

theorem Scalar.not_isOpen {ts : List Token} (h : Scalar ts) : ∀ t ∈ ts, t.isOpen = false := by
  cases h with
  | var h => simpa using h.not_isOpen (.inl rfl)
  | number h => simpa using h.not_isOpen (.inr rfl)
  | @negative m n hm hn =>
    simp only [Token.is, Bool.and_eq_true, beq_iff_eq] at hm
    simpa [isOpen, hm] using hn.not_isOpen (.inr rfl)

theorem Scalar.scan_append {ts : List Token} (h : Scalar ts) (rest : List Char)
    (hapart : Apart rest) :
    scan false ((join ts).toList ++ rest) = ts.map Token.bare ++ scan true rest :=
  h.item.scan_append rest hapart fun t ht hc => absurd hc (by simp [h.not_isOpen t ht])

/-! ## Words -/

theorem scan_spaced {w : String} (hw : w ∈ ["=", "+", "-", "<", ">"]) (rest : List Char) :
    scan true (' ' :: (w.toList ++ ' ' :: rest)) = (Mark.op w).token :: scan false rest := by
  have hall : ∀ w ∈ ["=", "+", "-", "<", ">"], w ∈ symbolOperators ∧
      operatorKind true w = .binaryOp ∧ w ≠ "[" ∧
      (Mark.op w).token.endsOperand = false := by decide
  obtain ⟨hsymbol, hkind, hbracket, hends⟩ := hall w hw
  rw [scan_gap rfl, scan_symbol hsymbol (by simp) (by simp) (fun hc => absurd hc hbracket), hkind]
  show (Mark.op w).token :: scan (Mark.op w).token.endsOperand (' ' :: rest) = _
  rw [hends, scan_gap rfl]

theorem scan_equals : scan true [' ', '='] = [(Mark.op "=").token] := by
  have hsymbol : scan true ("=".toList ++ []) = (Mark.op "=").token :: scan false [] :=
    scan_symbol (by decide) (by simp) (by simp) (by simp)
  rw [scan_gap rfl]
  exact hsymbol.trans (by rw [scan_nil])

/-- In brackets, only `null` is the name of a script object. -/
theorem Written.scriptObject? {k : TokenKind} {t : Token} (h : t.Written k) (hk : k ≠ .null)
    (rest : List Char) : scriptObject? ('[' :: (t.text.toList ++ rest)) = none := by
  have hfirst : ∃ c cs, t.text.toList = c :: cs ∧ startsName c = false := by
    have hshaped := (h.spelled false).shaped h.kind rfl
    have hoperand := h.operand
    rw [Shaped, h.kind] at hshaped
    cases k <;> simp only [TokenKind.isOperand, Bool.false_eq_true] at hoperand hshaped
    case null => exact absurd rfl hk
    case number =>
      obtain ⟨d, ds, hds, hd⟩ := hshaped
      have hunderscore : d ≠ '_' := ne_of_class hd rfl
      exact ⟨d, ds, hds, by simp [startsName, not_isAlpha_of_isDigit hd, hunderscore]⟩
    all_goals
      obtain ⟨cs, hcs⟩ := hshaped
      exact ⟨_, cs, hcs, rfl⟩
  obtain ⟨c, cs, hcs, hc⟩ := hfirst
  simp [hcs, Token.scriptObject?, hc]

theorem scan_opening {cs : List Char} (h : scriptObject? ('[' :: cs) = none) :
    scan true ('[' :: cs) = (Mark.op "[").token :: scan false cs :=
  scan_symbol (b := true) (w := "[") (by decide) (fun hc => absurd hc (by decide))
    (fun hc => absurd hc (by decide)) (fun _ => h)

theorem scan_closing (cs : List Char) :
    scan true (']' :: cs) = (Mark.op "]").token :: scan true cs :=
  scan_symbol (b := true) (w := "]") (by decide) (fun hc => absurd hc (by decide))
    (fun hc => absurd hc (by decide)) (fun hc => absurd hc (by decide))

theorem apart_closing (cs : List Char) : Apart (']' :: cs) := by
  intro c hc
  cases hc
  simp

theorem scan_index {k : TokenKind} {n : Token} (hn : n.Written k) (hk : k = .var ∨ k = .number)
    (rest : List Char) :
    scan true ('[' :: (n.text.toList ++ ']' :: rest)) =
      (Mark.op "[").token :: n.bare :: (Mark.op "]").token :: scan true rest := by
  have hnull : k ≠ .null := by rcases hk with rfl | rfl <;> simp
  rw [scan_opening (hn.scriptObject? hnull _), hn.scan_append _ (apart_closing rest)
    (fun hc => absurd hc (hn.not_isOpen hk)) false, scan_closing]

theorem scan_receiver {v : Token} (hv : v.Written .var) (rest : List Char) :
    scan false (v.text.toList ++ ' ' :: ("=".toList ++ ' ' :: rest)) =
      v.bare :: (Mark.op "=").token :: scan false rest := by
  have hapart : Apart (' ' :: ("=".toList ++ ' ' :: rest)) :=
    fun c hc => .inl (by simpa using hc.symm)
  rw [hv.scan_append _ hapart (fun hc => absurd hc (hv.not_isOpen (.inl rfl))),
    scan_spaced (by simp)]

theorem scan_element {a n : Token} {k : TokenKind} (ha : a.Written .var) (hn : n.Written k)
    (hk : k = .var ∨ k = .number) (rest : List Char) :
    scan false (a.text.toList ++ '[' :: (n.text.toList ++ ']' :: rest)) =
      a.bare :: (Mark.op "[").token :: n.bare :: (Mark.op "]").token :: scan true rest := by
  have hapart : Apart ('[' :: (n.text.toList ++ ']' :: rest)) := by
    intro c hc
    cases hc
    simp
  rw [ha.scan_append _ hapart (fun hc => absurd hc (ha.not_isOpen (.inl rfl))), scan_index hn hk]

theorem scan_word {m : Mark} {rest : List Char} (hne : m.text.toList ≠ [])
    (hkind : m.kind.isSignificant = true) (hends : m.token.endsOperand = false)
    (h : lexeme false (m.text.toList ++ ' ' :: rest) = (m.kind, m.text.toList.length)) :
    scan false (m.text.toList ++ ' ' :: rest) = m.token :: scan false rest := by
  have hscan : scan false (m.text.toList ++ ' ' :: rest) =
      m.token :: scan m.token.endsOperand (' ' :: rest) :=
    scan_append (t := m.token) hne hkind h
  rw [hscan, hends, scan_gap rfl]

theorem scan_while (rest : List Char) :
    scan false ("while ".toList ++ rest) = (Mark.mk .keyword "while").token :: scan false rest :=
  scan_word (m := ⟨.keyword, "while"⟩) (by decide) rfl rfl rfl

theorem scan_dec (rest : List Char) :
    scan false ("dec ".toList ++ rest) = (Mark.word "dec").token :: scan false rest :=
  scan_word (m := .word "dec") (by decide) rfl rfl rfl

theorem scan_size (rest : List Char) : scan false ("size of array ".toList ++ rest) =
    (Mark.word "size").token :: (Mark.word "of").token :: (Mark.word "array").token ::
      scan false rest := by
  have hsize : scan false ("size of array ".toList ++ rest) =
      (Mark.word "size").token :: scan false ("of array ".toList ++ rest) :=
    scan_word (m := .word "size") (by decide) rfl rfl rfl
  have hof : scan false ("of array ".toList ++ rest) =
      (Mark.word "of").token :: scan false ("array ".toList ++ rest) :=
    scan_word (m := .word "of") (by decide) rfl rfl rfl
  have harray : scan false ("array ".toList ++ rest) =
      (Mark.word "array").token :: scan false rest :=
    scan_word (m := .word "array") (by decide) rfl rfl rfl
  rw [hsize, hof, harray]

theorem scan_alloc {n : Token} (hn : n.Written .number) :
    scan false ("array alloc: size=".toList ++ n.text.toList) =
    [(Mark.word "array").token, (Mark.mk .label "alloc:").token, (Mark.word "size").token,
      (Mark.op "=").token, n.bare] := by
  have harray : scan false ("array alloc: size=".toList ++ n.text.toList) =
      (Mark.word "array").token :: scan false ("alloc: size=".toList ++ n.text.toList) :=
    scan_word (m := .word "array") (by decide) rfl rfl rfl
  have halloc : scan false ("alloc: size=".toList ++ n.text.toList) =
      (Mark.mk .label "alloc:").token :: scan false ("size=".toList ++ n.text.toList) :=
    scan_word (m := ⟨.label, "alloc:"⟩) (by decide) rfl rfl rfl
  have hsize : scan false ("size=".toList ++ n.text.toList) =
      (Mark.word "size").token :: scan false ("=".toList ++ n.text.toList) :=
    scan_append (t := (Mark.word "size").token) (by decide) rfl rfl
  -- The number does not turn the equals sign into a comparison.
  obtain ⟨d, ds, hds, hd⟩ := hn.head_digit
  have hfirst : n.text.toList.head? ≠ some '=' := by
    rw [hds, List.head?_cons, ne_eq, Option.some.injEq]
    exact ne_of_class hd rfl
  have hequals : scan false ("=".toList ++ n.text.toList) =
      (Mark.op "=").token :: scan false n.text.toList :=
    scan_symbol (by decide) (fun _ => hfirst) (fun hc => absurd hc (by decide)) (fun hc =>
      absurd hc (by decide))
  rw [harray, halloc, hsize, hequals, hn.scan_eq]

end Token

end GameScript
