import GameScript.Proofs.Token.Spelling

/-!
# How tokens start

The first characters of a token tell its kind. `significant_spelled` says how the tokens of a line
are spelled, and `significant_of_front` and its companions give the first token of a line from the
characters that the line starts with.
-/

namespace GameScript.Token

/-! ## Operands -/

/-- An operand starts with the mark of its kind. -/
def Shaped (t : Token) : Prop :=
  match t.kind with
  | .var => ∃ cs, t.text.toList = '$' :: cs
  | .number => ∃ c cs, t.text.toList = c :: cs ∧ c.isDigit = true
  | .string => ∃ cs, t.text.toList = '\'' :: cs
  | .null => t.text.toList = ['n', 'u', 'l', 'l']
  | .gameObject => ∃ cs, t.text.toList = '{' :: cs
  | .scriptObject => ∃ cs, t.text.toList = '[' :: cs
  | .comment => False
  | _ => True

variable {before : Bool} {cs : List Char} {kind : TokenKind} {n : Nat} {c : Char} {line : String}

theorem operator?_kind (h : operator? before cs = some (kind, n)) :
    kind = .binaryOp ∨ kind = .unaryOp := by
  rcases operator?_cases h with ⟨rfl, _⟩ | ⟨w, _, rfl, _⟩
  · exact .inl rfl
  · exact operatorKind_cases before w

theorem Spelled.shaped (h : Spelled before kind cs) {t : Token}
    (hkind : t.kind = kind) (htext : t.text.toList = cs) : t.Shaped := by
  unfold Shaped
  rw [hkind, htext]
  cases h with
  | @number digits hne hdigits =>
    obtain ⟨d, ds, rfl⟩ := List.exists_cons_of_ne_nil hne
    exact ⟨d, ds, rfl, hdigits d (by simp)⟩
  | @symbol _ w hw hop =>
    rcases operatorKind_cases before w with hkind | hkind <;> rw [hop, hkind] <;> trivial
  | null => rfl
  | keyword | label | wordOperator | text | blank => trivial
  | _ => exact ⟨_, rfl⟩

/-- Only its own mark opens a string or an object. -/
theorem opening_of_lexeme (h : lexeme before (c :: cs) = (kind, n)) :
    (kind = .string → c = '\'') ∧ (kind = .gameObject → c = '{') := by
  have hshaped : Shaped (ofChars kind 0 (c :: cs.take (n - 1))) :=
    (spelled_of_lexeme h).shaped rfl (by simp [ofChars])
  constructor <;> rintro rfl <;> obtain ⟨_, htext⟩ :=
    hshaped <;> rw [ofChars, String.toList_ofList] at htext <;>
    exact (List.cons.inj htext).1

/-- The tokens of a text are spelled as their kinds ask. -/
theorem lex_spelled (offset : Nat) (before : Bool) (cs : List Char) :
    ∀ t ∈ lex offset before cs, ∃ b, Spelled b t.kind t.text.toList := by
  fun_induction lex offset before cs with
  | case1 => simp
  | case2 offset before c cs kind n hlexeme t ih =>
    intro u hu
    rcases List.mem_cons.mp hu with rfl | hu
    · exact ⟨before, by simpa [t, ofChars] using spelled_of_lexeme hlexeme⟩
    · exact ih u hu

/-- The tokens of a line that carry meaning are spelled as their kinds ask. -/
theorem significant_spelled (line : String) :
    ∀ t ∈ significant (tokenize line false), ∃ b, Spelled b t.kind t.text.toList := by
  have hbody : ∀ offset cs, ∀ t ∈ significant (lexBody false offset cs), ∃ b,
      Spelled b t.kind t.text.toList := by
    intro offset cs t ht
    rw [significant, List.mem_filter] at ht
    unfold lexBody at ht
    split at ht
    · rcases List.mem_cons.mp ht.1 with rfl | hmem
      · cases ht.2
      · exact lex_spelled _ _ _ t hmem
    · exact lex_spelled _ _ _ t ht.1
  intro t ht
  unfold tokenize at ht
  dsimp only at ht
  split at ht
  · exact hbody _ _ t ht
  · rw [significant, List.filter_cons_of_neg (by simp [ofChars, TokenKind.isSignificant])] at ht
    exact hbody _ _ t ht

/-- An operand is spelled the same way wherever it stands. -/
theorem Spelled.of_isOperand {b : Bool} (h : Spelled b kind cs)
    (hkind : kind.isOperand = true) (b' : Bool) : Spelled b' kind cs := by
  cases h with
  | var hne hname => exact .var hne hname
  | number hne hdigits => exact .number hne hdigits
  | string hinner => exact .string hinner
  | openString hinner => exact .openString hinner
  | null => exact .null
  | gameObject hinner => exact .gameObject hinner
  | openGameObject hinner => exact .openGameObject hinner
  | scriptObject hc hname => exact .scriptObject hc hname
  | @symbol _ w _ hop =>
    rcases operatorKind_cases b w with hw | hw <;> rw [hop, hw] at hkind <;> cases hkind
  | _ => cases hkind

/-! ## The first token of a line -/

def startsBare : List Char → Bool
  | c :: _ => !isGap c && c != '*'
  | [] => false

/-- A line that starts with neither a blank nor a comment mark is cut from its first character
on. -/
theorem tokenize_of_startsBare (h : startsBare line.toList = true) :
    tokenize line false = lex 0 false line.toList := by
  cases hcs : line.toList with
  | nil => simp [hcs, startsBare] at h
  | cons c cs =>
    simp only [hcs, startsBare, Bool.and_eq_true, Bool.not_eq_true', bne_iff_ne, ne_eq] at h
    have hgap : (c :: cs).takeWhile isGap = [] := by simp [h.1]
    simp only [tokenize, hcs, hgap]
    unfold lexBody
    split
    · next heq => exact absurd (List.cons.inj heq).1 h.2
    · rfl

theorem comment?_of_startsBare (h : startsBare line.toList = true) :
    comment? (tokenize line false) = none := by
  rw [tokenize_of_startsBare h, comment?, List.find?_eq_none]
  intro t ht hc
  obtain ⟨b, hspelled⟩ := lex_spelled _ _ _ t ht
  have hshaped := hspelled.shaped rfl rfl
  simp only [beq_iff_eq] at hc
  simp [Shaped, hc] at hshaped

/-- The first token of such a line is the one that the first rule finds. -/
theorem significant_of_startsBare (hcs : line.toList = c :: cs) (h : startsBare line.toList = true)
    (hlexeme : lexeme false (c :: cs) = (kind, n)) (hkind : kind.isSignificant = true) :
    ∃ ts, significant (tokenize line false) = ofChars kind 0 (c :: cs.take (n - 1)) :: ts := by
  rw [tokenize_of_startsBare h, hcs, lex, hlexeme, significant]
  exact ⟨_, List.filter_cons_of_pos (by simpa [ofChars] using hkind)⟩

theorem first_of_mark (hcs : line.toList = c :: cs)
    (halpha : c.isAlpha = false) (hbare : startsBare (c :: cs) = true) :
    ∃ t ts, significant (tokenize line false) = t :: ts ∧ t.kind ≠ .keyword ∧
      t.text.toList.head? = some c := by
  have hgap : isGap c = false := by
    simp only [startsBare, Bool.and_eq_true, Bool.not_eq_true'] at hbare
    exact hbare.1
  rcases hlexeme : lexeme false (c :: cs) with ⟨kind, n⟩
  have hkeyword : kind ≠ .keyword ∧ kind.isSignificant = true := by
    rcases lexeme_cases hlexeme with ⟨rfl, h⟩ | ⟨rfl, _⟩ | ⟨rfl, _⟩ | h | ⟨rfl, _⟩ | h | ⟨rfl,
      _⟩ | ⟨rfl, _⟩ |
      ⟨rfl, _⟩ | ⟨rfl, _⟩
    · simp [gap?, hgap] at h
    · exact ⟨by simp, rfl⟩
    · exact ⟨by simp, rfl⟩
    · have hpos := (keyword?_kind h).2.1
      rw [(keyword?_kind h).1] at hpos
      simp [wordLength, halpha] at hpos
    · exact ⟨by simp, rfl⟩
    · rcases operator?_kind h with rfl | rfl <;> exact ⟨by simp, rfl⟩
    all_goals exact ⟨by simp, rfl⟩
  obtain ⟨ts, hts⟩ := significant_of_startsBare hcs (hcs ▸ hbare) hlexeme hkeyword.2
  exact ⟨_, ts, hts, hkeyword.1, by simp [ofChars]⟩

end GameScript.Token
