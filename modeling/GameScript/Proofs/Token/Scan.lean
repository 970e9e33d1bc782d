import GameScript.Proofs.Token.Shape
import GameScript.Token.Spacing

/-!
# Tokens and their canonical text

`Token.scan` gives the tokens of a text that carry meaning, without their places in the line. Tokens
that were cut from a line are `Cut`: each is spelled as its kind asks, a minus sign is unary exactly
where no operand stands before it, and what is not closed comes last.

Such tokens can be written with canonical spacing and cut again (`scan_join`), if the spacing joins
none of them to something else (`Firm`): a bracket and a name to a script object, a minus sign and
`>` to an arrow, an exclamation mark and `=` to a comparison, and free text to anything.
-/

namespace GameScript.Token

/-! ## Tokens without places -/

def bare (t : Token) : Token := { t with start := 0, stop := 0 }

@[simp] theorem kind_bare (t : Token) : t.bare.kind = t.kind := rfl

@[simp] theorem text_bare (t : Token) : t.bare.text = t.text := rfl

@[simp] theorem value_bare (t : Token) : t.bare.value = t.value := rfl

@[simp] theorem endsOperand_bare (t : Token) : t.bare.endsOperand = t.endsOperand := rfl

@[simp] theorem bare_bare (t : Token) : t.bare.bare = t.bare := rfl

theorem significant_map_bare (ts : List Token) :
    significant (ts.map bare) = (significant ts).map bare :=
  List.filter_map

/-- The tokens of a text that carry meaning, without their places. -/
def scan (b : Bool) (cs : List Char) : List Token := (significant (lex 0 b cs)).map bare

/-- Where a text starts matters for the places of its tokens only. -/
theorem lex_map_bare (offset offset' : Nat) (b : Bool) (cs : List Char) :
    (lex offset b cs).map bare = (lex offset' b cs).map bare := by
  fun_induction lex offset b cs generalizing offset' with
  | case1 => simp [lex]
  | case2 offset b c cs kind n hlexeme t ih =>
    rw [lex, hlexeme]
    simp only [List.map_cons]
    have hafter : afterOperand b (ofChars kind offset' (c :: cs.take (n - 1))) = afterOperand b t :=
      rfl
    rw [hafter, ih]
    rfl

theorem scan_eq (offset : Nat) (b : Bool) (cs : List Char) :
    (significant (lex offset b cs)).map bare = scan b cs := by
  rw [scan, ← significant_map_bare, ← significant_map_bare, lex_map_bare offset 0]

@[simp] theorem scan_nil (b : Bool) : scan b [] = [] := by simp [scan, lex, significant]

section

variable {b : Bool} {c : Char} {cs : List Char} {kind : TokenKind} {n : Nat}

theorem scan_cons (h : lexeme b (c :: cs) = (kind, n)) (hkind : kind.isSignificant = true) :
    scan b (c :: cs) = (ofChars kind 0 (c :: cs.take (n - 1))).bare ::
      scan (ofChars kind 0 (c :: cs.take (n - 1))).endsOperand (cs.drop (n - 1)) := by
  have hafter : ∀ t : Token, t.kind = kind → afterOperand b t = t.endsOperand :=
    fun t ht => by rw [afterOperand, ht, if_pos hkind]
  have hcons : ∀ (t : Token) (ts : List Token), t.kind = kind →
      (significant (t :: ts)).map bare = t.bare :: (significant ts).map bare := by
    intro t ts ht
    rw [significant, List.filter_cons_of_pos (by rw [ht]; exact hkind)]
    rfl
  rw [scan, lex, h]
  dsimp only
  rw [hcons _ _ rfl, scan_eq, hafter _ rfl]

theorem scan_of_blank (h : lexeme b (c :: cs) = (kind, n)) (hkind : kind.isSignificant = false) :
    scan b (c :: cs) = scan b (cs.drop (n - 1)) := by
  have hafter : ∀ t : Token, t.kind = kind → afterOperand b t = b :=
    fun t ht => by rw [afterOperand, ht, if_neg (by simp [hkind])]
  have hcons : ∀ (t : Token) (ts : List Token), t.kind = kind →
      significant (t :: ts) = significant ts := by
    intro t ts ht
    rw [significant, List.filter_cons_of_neg (by rw [ht]; simp [hkind])]
    rfl
  rw [scan, lex, h]
  dsimp only
  rw [hcons _ _ rfl, scan_eq, hafter _ rfl]

end

theorem scan_append {b : Bool} {t : Token} {rest : List Char} (hne : t.text.toList ≠ [])
    (hkind : t.kind.isSignificant = true)
    (h : lexeme b (t.text.toList ++ rest) = (t.kind, t.text.toList.length)) :
    scan b (t.text.toList ++ rest) = t.bare :: scan t.endsOperand rest := by
  obtain ⟨c, cs, hcs⟩ := List.exists_cons_of_ne_nil hne
  rw [hcs, List.cons_append] at h ⊢
  have htake : (cs ++ rest).take ((c :: cs).length - 1) = cs := by simp
  have hdrop : (cs ++ rest).drop ((c :: cs).length - 1) = rest := by simp
  have htoken : (ofChars t.kind 0 (c :: cs)).bare = t.bare := by
    rw [ofChars, ← hcs]
    simp [bare]
  rw [scan_cons h hkind, htake, hdrop, ← endsOperand_bare, htoken, endsOperand_bare]

/-- Blanks between tokens do not matter. -/
theorem scan_gap {c : Char} (hc : isGap c = true) (b : Bool) (cs : List Char) :
    scan b (c :: cs) = scan b cs := by
  have hrun : ∀ {c : Char} {cs : List Char}, isGap c = true →
      scan b (c :: cs) = scan b (cs.dropWhile isGap) := by
    intro c cs hc
    have hlexeme : lexeme b (c :: cs) = (.blank, (cs.takeWhile isGap).length + 1) := by
      simp [lexeme, gap?, hc]
    have hsplit := List.takeWhile_append_dropWhile (p := isGap) (l := cs)
    have hdrop := congrArg (List.drop (cs.takeWhile isGap).length) hsplit
    rw [List.drop_left] at hdrop
    rw [scan_of_blank hlexeme rfl, Nat.add_sub_cancel, hdrop]
  rw [hrun hc]
  cases cs with
  | nil => rfl
  | cons d ds =>
    by_cases hd : isGap d = true
    · rw [hrun hd, List.dropWhile_cons_of_pos hd]
    · rw [List.dropWhile_cons_of_neg hd]

/-! ## Tokens of a line -/

/-- The token is a string or an object without its closing mark. -/
def isOpen (t : Token) : Bool :=
  (t.kind == .string && !(t.text.toList.drop 1).contains '\'') ||
    (t.kind == .gameObject && !(t.text.toList.drop 1).contains '}')

/-- The token may stand in a line before the tokens `ts`, and behind an operand if `b` is true. -/
structure CutBefore (b : Bool) (t : Token) (ts : List Token) : Prop where
  spelled : Spelled b t.kind t.text.toList
  nonempty : t.text.toList ≠ []
  significant : t.kind.isSignificant = true
  last : t.isOpen = true → ts = []

def Cut : Bool → List Token → Prop
  | _, [] => True
  | b, t :: ts => t.CutBefore b ts ∧ Cut t.endsOperand ts

/-- What is not closed goes on to the end of the line. -/
theorem drop_of_isOpen {b : Bool} {c : Char} {cs : List Char} {kind : TokenKind} {n : Nat}
    (h : lexeme b (c :: cs) = (kind, n))
    (hopen : (ofChars kind 0 (c :: cs.take (n - 1))).isOpen = true) :
    cs.drop (n - 1) = [] := by
  -- A closing mark behind the opening one would close the token.
  have hdelimited : ∀ {closing}, delimitedLength closing cs = n → closing ∉ cs.take (n - 1) →
      cs.drop (n - 1) = [] := by
    rintro closing rfl hopen
    by_cases hmem : closing ∈ cs
    · obtain ⟨inner, rest, rfl, hinner⟩ := List.eq_append_cons_of_mem hmem
      refine absurd ?_ hopen
      rw [delimitedLength_append hinner, List.append_cons, List.take_left' (by simp)]
      simp
    · rw [delimitedLength_open hmem, Nat.add_sub_cancel, List.drop_length]
  simp only [isOpen, Bool.or_eq_true, Bool.and_eq_true, beq_iff_eq] at hopen
  rcases hopen with ⟨hkind, hopen⟩ | ⟨hkind, hopen⟩
  · obtain rfl := (opening_of_lexeme h).1 hkind
    rw [lexeme_quote] at h
    exact hdelimited (Prod.mk.inj h).2 (by simpa [ofChars] using hopen)
  · obtain rfl := (opening_of_lexeme h).2 hkind
    rw [lexeme_brace] at h
    exact hdelimited (Prod.mk.inj h).2 (by simpa [ofChars] using hopen)

/-- The tokens of a text may stand in a line. -/
theorem scan_cut (b : Bool) (cs : List Char) : Cut b (scan b cs) := by
  rw [scan]
  generalize 0 = offset
  fun_induction lex offset b cs with
  | case1 => trivial
  | case2 offset b c cs kind n hlexeme t ih =>
    rw [significant, List.filter_cons]
    split
    · next hkind =>
      have hafter : afterOperand b t = t.endsOperand := if_pos hkind
      rw [hafter] at ih ⊢
      refine ⟨⟨?_, by simp [t, ofChars], hkind, fun hopen => ?_⟩, ih⟩
      · simpa [t, ofChars] using spelled_of_lexeme hlexeme
      · rw [drop_of_isOpen hlexeme hopen]
        simp [lex]
    · next hkind =>
      have hafter : afterOperand b t = b := if_neg hkind
      rw [hafter] at ih ⊢
      exact ih

/-! ## Canonical text -/

/-- Canonical spacing keeps the token apart from the tokens `ts` behind it. -/
structure FirmBefore (t : Token) (ts : List Token) : Prop where
  text : t.kind = .text → IsPlainWord t.text ∨ t.text = "->"
  minus : t.is .unaryOp "-" = true → (join ts).toList.head? ≠ some '>'
  negation : t.is .unaryOp "!" = true → (join ts).toList.head? ≠ some '='
  bracket : t.is .binaryOp "[" = true → scriptObject? ('[' :: (join ts).toList) = none

def Firm : List Token → Prop
  | [] => True
  | t :: ts => t.FirmBefore ts ∧ Firm ts

def tail (t : Token) : List Token → String
  | [] => ""
  | u :: ts => spacing t u ++ join (u :: ts)

theorem join_cons (t : Token) (ts : List Token) : join (t :: ts) = t.text ++ t.tail ts := by
  cases ts with
  | nil => simp [join, tail]
  | cons u ts => simp [join, tail, String.append_assoc]

/-- Canonical text goes on with a blank, a closing bracket, a comma or the bracket of an index. -/
def Apart (cs : List Char) : Prop :=
  ∀ c, cs.head? = some c → c = ' ' ∨ c = ')' ∨ c = ']' ∨ c = ',' ∨ c = '['

theorem tail_apart {t : Token} (h : t.hugsRight = false) (ts : List Token) :
    Apart (t.tail ts).toList := by
  intro c hc
  cases ts with
  | nil => simp [tail] at hc
  | cons u ts =>
    rw [tail, spacing, h, Bool.or_false, join_cons] at hc
    split at hc
    · next hu =>
      simp only [hugsLeft, Bool.or_eq_true, beq_iff_eq] at hu
      rcases hu with ((hu | hu) | hu) | hu <;> rw [hu] at hc <;> simp at hc <;> simp [← hc]
    · simp at hc
      exact .inl hc.symm

theorem tail_of_hugsRight {t : Token} (h : t.hugsRight = true) (ts : List Token) :
    t.tail ts = join ts := by
  cases ts with
  | nil => rfl
  | cons u ts => simp [tail, spacing, h]

namespace Apart

variable {cs : List Char}

theorem continuesName (h : Apart cs) : continuesName cs = false := by
  cases cs with
  | nil => rfl
  | cons c cs => rcases h c rfl with rfl | rfl | rfl | rfl | rfl <;> rfl

theorem endsText (h : Apart cs) (c : Char) (hc : cs.head? = some c) : endsText c = true := by
  rcases h c hc with rfl | rfl | rfl | rfl | rfl <;> rfl

theorem head?_ne (h : Apart cs) {c : Char} (hc : c ∉ [' ', ')', ']', ',', '[']) :
    cs.head? ≠ some c := by
  intro hhead
  apply hc
  simpa using h c hhead

end Apart

/-- An opening bracket is an operator. -/
theorem Spelled.isOperator_of_bracket {b : Bool} {kind : TokenKind} {d : Char}
    (h : Spelled b kind [d]) (hd : d = '(' ∨ d = '[') :
    kind.isOperator = true ∨ kind = .text ∨ kind = .blank := by
  have hdigit : d.isDigit = false := by rcases hd with rfl | rfl <;> rfl
  have hdollar : d ≠ '$' ∧ d ≠ '\'' ∧ d ≠ '{' := by rcases hd with rfl | rfl <;> decide
  generalize hcs : [d] = cs at h
  cases h with
  | var | string | openString | gameObject | openGameObject => simp_all
  | number _ hdigits =>
    rw [← hcs] at hdigits
    simp [hdigit] at hdigits
  | keyword hw =>
    have hlong : ∀ w ∈ keywords, 1 < w.toList.length := by decide
    have := hlong _ hw
    rw [← hcs] at this
    simp at this
  | null | scriptObject | label => simp at hcs
  | wordOperator => exact .inl rfl
  | @symbol _ w _ hop =>
    rcases operatorKind_cases b w with hkind | hkind <;> rw [hop, hkind] <;> exact .inl rfl
  | text => exact .inr (.inl rfl)
  | blank => exact .inr (.inr rfl)

section

variable {b : Bool} {t : Token} {ts : List Token}

/-- Only operators are written without a blank behind them. -/
theorem hugsRight_eq_false (hcut : t.CutBefore b ts) (hfirm : t.FirmBefore ts)
    (hkind : t.kind.isOperator = false) :
    t.hugsRight = false := by
  have hbracket : ∀ d : Char, d = '(' ∨ d = '[' → t.text ≠ String.ofList [d] := by
    intro d hd htext
    have hspelled := hcut.spelled
    rw [htext, String.toList_ofList] at hspelled
    rcases hspelled.isOperator_of_bracket hd with hop | htextKind | hblank
    · rw [hkind] at hop
      cases hop
    · rcases hfirm.text htextKind with hword | harrow
      · have hletter := hword.letters d (by simp [htext])
        rcases hd with rfl | rfl <;> cases hletter
      · rw [htext] at harrow
        rcases hd with rfl | rfl <;> exact absurd harrow (by decide)
    · have hsignificant := hcut.significant
      rw [hblank] at hsignificant
      cases hsignificant
  have hunary : t.kind ≠ .unaryOp := by
    intro hc
    rw [hc] at hkind
    cases hkind
  have hparen : t.text ≠ "(" := hbracket '(' (.inl rfl)
  have hsquare : t.text ≠ "[" := hbracket '[' (.inr rfl)
  simp [hugsRight, hunary, hparen, hsquare]

/-- A token that is no operator is found again before a text that is apart from it. -/
theorem lexeme_of_apart {rest : List Char} (hspelled : Spelled b t.kind t.text.toList)
    (hsignificant : t.kind.isSignificant = true) (hkind : t.kind.isOperator = false)
    (htext : t.kind = .text → IsPlainWord t.text ∨ t.text = "->") (hapart : Apart rest)
    (hend : t.isOpen = true → rest = []) :
    lexeme b (t.text.toList ++ rest) = (t.kind, t.text.toList.length) := by
  have hname := hapart.continuesName
  have hcolon := hapart.head?_ne (c := ':') (by decide)
  unfold isOpen at hend
  generalize hcs : t.text.toList = cs at *
  generalize htkind : t.kind = kind at *
  cases hspelled with
  | var hne hletters => exact lexeme_var hne hletters hname
  | number hne hdigits => exact lexeme_number hne hdigits hname
  | string hinner =>
    rw [List.cons_append, lexeme_quote, List.append_assoc, List.singleton_append,
      delimitedLength_append hinner]
    simp
  | @openString inner hinner =>
    rw [hend (by simp [hinner]), List.append_nil, lexeme_quote, delimitedLength_open hinner]
    rfl
  | null =>
    exact lexeme_keyword (w := "null") (by simp) (List.all_eq_true.mp (by decide)) (.inl ⟨rfl, rfl⟩)
      hname hcolon
      (hapart.head?_ne (by decide))
  | gameObject hinner =>
    rw [List.cons_append, lexeme_brace, List.append_assoc, List.singleton_append,
      delimitedLength_append hinner]
    simp
  | @openGameObject inner hinner =>
    rw [hend (by simp [hinner]), List.append_nil, lexeme_brace, delimitedLength_open hinner]
    rfl
  | @scriptObject c name hc hletters =>
    have hlexeme : lexeme b ('[' :: c :: (name ++ ']' :: rest)) = _ :=
      lexeme_scriptObject hc hletters
    simpa using hlexeme
  | keyword hw =>
    have hall : ∀ w ∈ keywords, w.toList ≠ [] ∧ w.toList.all Char.isAlpha = true := by decide
    exact lexeme_keyword (hall _ hw).1 (List.all_eq_true.mp (hall _ hw).2) (.inr ⟨rfl, hw⟩)
      hname hcolon
      (hapart.head?_ne (by decide))
  | @label c name hc hletters =>
    have hlexeme : lexeme b (c :: (name ++ ':' :: rest)) = _ := lexeme_label hc hletters
    simpa using hlexeme
  | wordOperator => cases hkind
  | @symbol _ w _ hop =>
    rcases operatorKind_cases b w with hw | hw <;> rw [hop, hw] at hkind <;> cases hkind
  | text =>
    rcases htext rfl with hword | harrow
    · rw [← hcs]
      exact lexeme_plainWord hword hapart.endsText hname hcolon
    · rw [harrow] at hcs
      rw [← hcs]
      exact lexeme_arrow hapart.endsText
  | blank => cases hsignificant

theorem lexeme_tail_of_not_isOperator (hcut : t.CutBefore b ts) (hfirm : t.FirmBefore ts)
    (hkind : t.kind.isOperator = false) :
    lexeme b (t.text.toList ++ (t.tail ts).toList) = (t.kind, t.text.toList.length) := by
  refine lexeme_of_apart hcut.spelled hcut.significant hkind hfirm.text
    (tail_apart (hugsRight_eq_false hcut hfirm hkind) ts) fun hopen => ?_
  rw [hcut.last hopen]
  rfl

/-- An operator is found again at the front of its canonical text. -/
theorem lexeme_tail_of_isOperator (hcut : t.CutBefore b ts) (hfirm : t.FirmBefore ts)
    (hkind : t.kind.isOperator = true) :
    lexeme b (t.text.toList ++ (t.tail ts).toList) = (t.kind, t.text.toList.length) := by
  have hspelled := hcut.spelled
  have hbinary : t.kind = .binaryOp → t.text ≠ "(" → t.text ≠ "[" → Apart (t.tail ts).toList := by
    intro hbinary hparen hbracket
    exact tail_apart (by simp [hugsRight, hbinary, hparen, hbracket]) ts
  have hunary : t.kind = .unaryOp → t.tail ts = join ts :=
    fun hunary => tail_of_hugsRight (by simp [hugsRight, hunary]) ts
  generalize hcs : t.text.toList = cs at hspelled
  generalize htkind : t.kind = kind at hspelled
  cases hspelled with
  | @wordOperator w hw =>
    obtain rfl : t.text = w := String.toList_inj.mp hcs
    have hplain : ∀ w ∈ wordOperators, w ≠ "(" ∧ w ≠ "[" := by decide
    have hapart := hbinary htkind (hplain _ hw).1 (hplain _ hw).2
    exact lexeme_wordOperator hw hapart.continuesName (hapart.head?_ne (by decide))
  | @symbol _ w hw hop =>
    obtain rfl : t.text = w := String.toList_inj.mp hcs
    rw [hop]
    refine lexeme_symbol hw (operator?_symbol hw ?_ ?_ ?_)
    · intro hmem
      by_cases hbang : t.text = "!"
      · have hkind' : t.kind = .unaryOp := by rw [htkind, hop, hbang]; rfl
        rw [hunary hkind']
        exact hfirm.negation (by simp [Token.is, hkind', hbang])
      · have hkind' : t.kind = .binaryOp := by
          rw [htkind, hop]
          simp only [List.mem_cons, List.not_mem_nil, or_false, hbang, false_or] at hmem
          rcases hmem with h | h | h <;> rw [h] <;> rfl
        have hplain : ∀ w ∈ ["=", "!", "<", ">"], w ≠ "(" ∧ w ≠ "[" := by decide
        exact (hbinary hkind' (hplain _ hmem).1 (hplain _ hmem).2).head?_ne (by decide)
    · intro hminus
      cases hb : b with
      | false =>
        have hkind' : t.kind = .unaryOp := by rw [htkind, hop, hminus, hb]; rfl
        rw [hunary hkind']
        exact hfirm.minus (by simp [Token.is, hkind', hminus])
      | true =>
        have hkind' : t.kind = .binaryOp := by rw [htkind, hop, hminus, hb]; rfl
        exact (hbinary hkind' (by rw [hminus]; decide) (by rw [hminus]; decide)).head?_ne
          (by decide)
    · intro hbracket
      have hkind' : t.kind = .binaryOp := by rw [htkind, hop, hbracket]; rfl
      rw [tail_of_hugsRight (by simp [hugsRight, hbracket])]
      exact hfirm.bracket (by simp [Token.is, hkind', hbracket])
  | _ =>
    rw [htkind] at hkind
    cases hkind

/-- A token is found again at the front of its canonical text. -/
theorem lexeme_tail (hcut : t.CutBefore b ts) (hfirm : t.FirmBefore ts) :
    lexeme b (t.text.toList ++ (t.tail ts).toList) = (t.kind, t.text.toList.length) := by
  cases hkind : t.kind.isOperator with
  | false => exact lexeme_tail_of_not_isOperator hcut hfirm hkind
  | true => exact lexeme_tail_of_isOperator hcut hfirm hkind

end

/-- Tokens of a line that canonical spacing keeps apart are cut from their canonical text again. -/
theorem scan_join {b : Bool} {ts : List Token} (hcut : Cut b ts) (hfirm : Firm ts) :
    scan b (join ts).toList = ts.map bare := by
  induction ts generalizing b with
  | nil => simp [join]
  | cons t ts ih =>
    obtain ⟨ht, hcut⟩ := hcut
    obtain ⟨hfirst, hfirm⟩ := hfirm
    rw [join_cons, String.toList_append,
      scan_append ht.nonempty ht.significant (lexeme_tail ht hfirst),
      List.map_cons, ← ih hcut hfirm]
    congr 1
    cases ts with
    | nil => rfl
    | cons u ts =>
      rw [tail, spacing]
      split
      · rw [String.empty_append]
      · rw [String.toList_append]
        exact scan_gap rfl _ _

end GameScript.Token
