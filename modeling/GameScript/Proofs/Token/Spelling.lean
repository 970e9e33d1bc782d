import GameScript.Token.Lexer
import GameScript.Token.Spacing

/-!
# How tokens are spelled

`Spelled` says which characters a token of each kind can have. The lexer cuts nothing else
(`exists_spelled`), and it cuts a token that is spelled like this again, whatever stands behind it,
as long as that does not go on with the token (`Spelled.lexeme_eq`).
-/

namespace GameScript.Token

/-! ## Runs of characters -/

variable {p : Char → Bool} {c : Char} {cs : List Char} {before : Bool} {kind : TokenKind} {n : Nat}

/-- A run of characters ends where a character of another kind stands. -/
theorem takeWhile_run {w rest : List Char} (hw : ∀ c ∈ w, p c = true)
    (hrest : ∀ c, rest.head? = some c → p c = false) : (w ++ rest).takeWhile p = w := by
  rw [List.takeWhile_append_of_pos hw]
  cases rest with
  | nil => simp
  | cons c cs => simp [hrest c rfl]

theorem exists_run (h : 0 < ((c :: cs).takeWhile p).length) :
    ∃ w rest, cs = w ++ rest ∧ (c :: cs).takeWhile p = c :: w := by
  have hc : p c = true := by
    cases hc : p c with
    | true => rfl
    | false => simp [hc] at h
  exact ⟨_, _, List.takeWhile_append_dropWhile.symm, List.takeWhile_cons_of_pos hc⟩

theorem mem_takeWhile (h : c ∈ cs.takeWhile p) : p c = true :=
  List.all_eq_true.mp List.all_takeWhile c h

theorem exists_behind_run {d : Char} (h : (cs.drop (cs.takeWhile p).length).head? = some d) :
    ∃ rest, cs = cs.takeWhile p ++ d :: rest := by
  obtain ⟨rest, hrest⟩ := List.head?_eq_some_iff.mp h
  refine ⟨rest, (List.take_append_drop (cs.takeWhile p).length cs).symm.trans ?_⟩
  rw [hrest, ← List.prefix_iff_eq_take.mp (List.takeWhile_prefix p)]

/-- A text in delimiters has its length, whatever follows. -/
theorem delimitedLength_append {closing : Char} {inner : List Char} (hinner : closing ∉ inner)
    (rest : List Char) : delimitedLength closing (inner ++ closing :: rest) = inner.length + 2 := by
  have hrun : (inner ++ closing :: rest).takeWhile (· != closing) = inner := by
    refine takeWhile_run (fun c hc => by simpa using ne_of_mem_of_not_mem hc hinner) fun c hc => ?_
    cases hc
    simp
  simp [delimitedLength, hrun]

theorem delimitedLength_open {closing : Char} {inner : List Char} (hinner : closing ∉ inner) :
    delimitedLength closing inner = inner.length + 1 := by
  have hrun : (inner ++ []).takeWhile (· != closing) = inner :=
    takeWhile_run (fun c hc => by simpa using ne_of_mem_of_not_mem hc hinner) fun c hc => by
      cases hc
  rw [List.append_nil] at hrun
  simp [delimitedLength, hrun]

/-! ## Characters -/

theorem not_gap_of_isDigit (h : c.isDigit = true) : isGap c = false := by
  cases hgap : isGap c with
  | false => rfl
  | true =>
    simp only [isGap, Bool.or_eq_true, beq_iff_eq] at hgap
    rcases hgap with (rfl | rfl) | rfl <;> cases h

theorem ne_of_class {d : Char} (h : p c = true) (hd : p d = false) : c ≠ d := by
  rintro rfl
  rw [h] at hd
  cases hd

theorem not_isAlpha_of_isDigit (h : c.isDigit = true) : c.isAlpha = false := by
  simp only [Char.isDigit, Bool.and_eq_true, decide_eq_true_eq, ge_iff_le,
    UInt32.le_iff_toNat_le] at h
  have hrange : 48 ≤ c.val.toNat ∧ c.val.toNat ≤ 57 := h
  show (decide (c.val ≥ 'A'.val ∧ c.val ≤ 'Z'.val) || c.val ≥ 'a'.val && c.val ≤ 'z'.val) = false
  simp only [Bool.or_eq_false_iff, Bool.and_eq_false_iff, decide_eq_false_iff_not, ge_iff_le,
    UInt32.le_iff_toNat_le]
  constructor
  · rintro ⟨hupper, -⟩
    have hupper : 65 ≤ c.val.toNat := hupper
    omega
  · refine .inl fun hlower => ?_
    have hlower : 97 ≤ c.val.toNat := hlower
    omega

/-! ## Spellings -/

/-- The characters of a token of each kind. The token comes behind an operand if `b` is true. -/
inductive Spelled (b : Bool) : TokenKind → List Char → Prop
  | var {name : List Char} (hne : name ≠ []) (hname : ∀ c ∈ name, isNameChar c = true) : Spelled b
      .var ('$' :: name)
  | number {digits : List Char} (hne : digits ≠ []) (hdigits : ∀ c ∈ digits, c.isDigit = true) :
      Spelled b .number digits
  | string {inner : List Char} (hinner : '\'' ∉ inner) : Spelled b .string
      ('\'' :: (inner ++ ['\'']))
  /-- The last token of a line. -/
  | openString {inner : List Char} (hinner : '\'' ∉ inner) : Spelled b .string ('\'' :: inner)
  | null : Spelled b .null ['n', 'u', 'l', 'l']
  | gameObject {inner : List Char} (hinner : '}' ∉ inner) : Spelled b .gameObject
      ('{' :: (inner ++ ['}']))
  /-- The last token of a line. -/
  | openGameObject {inner : List Char} (hinner : '}' ∉ inner) : Spelled b .gameObject ('{' :: inner)
  | scriptObject {c : Char} {name : List Char} (hc : startsName c = true)
      (hname : ∀ d ∈ name, (isNameChar d || d == ' ') = true) : Spelled b .scriptObject
      ('[' :: c :: (name ++ [']']))
  | keyword {w : String} (hw : w ∈ keywords) : Spelled b .keyword w.toList
  | label {c : Char} {name : List Char} (hc : startsName c = true) (hname : ∀ d ∈ name,
      isNameChar d = true) :
      Spelled b .label (c :: (name ++ [':']))
  | wordOperator {w : String} (hw : w ∈ wordOperators) : Spelled b .binaryOp w.toList
  | symbol {kind : TokenKind} {w : String} (hw : w ∈ symbolOperators) (hkind : kind =
      operatorKind b w) :
      Spelled b kind w.toList
  | text {cs : List Char} : Spelled b .text cs
  | blank {cs : List Char} : Spelled b .blank cs

theorem lexeme_cases (h : lexeme before cs = (kind, n)) :
    (kind = .blank ∧ gap? cs = some n) ∨ (kind = .string ∧ string? cs = some n) ∨
      (kind = .number ∧ number? cs = some n) ∨ keyword? cs = some (kind, n) ∨
      (kind = .label ∧ label? cs = some n) ∨ operator? before cs = some (kind, n) ∨
      (kind = .var ∧ varLength? cs = some n) ∨ (kind = .gameObject ∧ gameObject? cs = some n) ∨
      (kind = .scriptObject ∧ scriptObject? cs = some n) ∨ (kind = .text ∧ n = textLength cs) := by
  simp only [lexeme, Option.orElse_eq_orElse, Option.orElse_eq_or, Option.getD_eq_iff,
    Option.or_eq_some_iff, Option.map_eq_some_iff, Prod.mk.injEq] at h
  rcases h with
    (⟨a, h, rfl, rfl⟩ | ⟨-, ⟨a, h, rfl, rfl⟩ | ⟨-, ⟨a, h, rfl, rfl⟩ | ⟨-, h | ⟨-, ⟨a, h, rfl, rfl⟩ |
    ⟨-, h | ⟨-, ⟨a, h, rfl, rfl⟩ | ⟨-, ⟨a, h, rfl, rfl⟩ | ⟨-, a, h, rfl, rfl⟩⟩⟩⟩⟩⟩⟩⟩) | ⟨-,
    rfl, rfl⟩
  all_goals simp [*]

theorem keyword?_kind (h : keyword? cs = some (kind, n)) :
    n = wordLength cs ∧ 0 < n ∧ ((kind = .null ∧ word cs = "null") ∨
      (kind = .keyword ∧ word cs ∈ keywords)) := by
  simp only [keyword?] at h
  split at h
  · cases h
  · next hn =>
    have hpos : 0 < wordLength cs := by
      simp only [Bool.or_eq_true, not_or, decide_eq_true_eq] at hn
      omega
    split at h
    · next hnull =>
      cases h
      exact ⟨rfl, hpos, .inl ⟨rfl, by simpa using hnull⟩⟩
    · split at h
      · next hmem =>
        cases h
        exact ⟨rfl, hpos, .inr ⟨rfl, by simpa using hmem⟩⟩
      · cases h

/-- An operator is a word or a symbol. -/
theorem operator?_cases (h : operator? before cs = some (kind, n)) :
    (kind = .binaryOp ∧ n = wordLength cs ∧ 0 < n ∧ word cs ∈ wordOperators) ∨
      ∃ w ∈ symbolOperators, kind = operatorKind before w ∧ n = w.length ∧
        w.toList.isPrefixOf cs = true := by
  simp only [operator?] at h
  split at h
  · next hn =>
    split at h
    · next hword =>
      cases h
      simp only [Bool.and_eq_true, List.contains_iff_mem] at hword
      exact .inl ⟨rfl, rfl, Nat.pos_of_ne_zero hn, hword.1⟩
    · cases h
  · split at h
    · cases h
    · split at h
      · cases h
      · split at h
        · next w hw =>
          cases h
          exact .inr ⟨w, List.mem_of_find?_eq_some hw, rfl, rfl, by simpa using List.find?_some hw⟩
        · cases h

theorem operatorKind_cases (before : Bool) (w : String) :
    operatorKind before w = .binaryOp ∨ operatorKind before w = .unaryOp := by
  unfold operatorKind
  split
  · exact .inr rfl
  · exact .inl rfl

/-- The lexer takes the characters of a token from the front, and they are spelled like its kind. -/
theorem exists_spelled (h : lexeme before (c :: cs) = (kind, n)) :
    ∃ w rest, cs = w ++ rest ∧ n = w.length + 1 ∧ Spelled before kind (c :: w) := by
  have hdelimited : ∀ {kind closing}, (∀ {inner}, closing ∉ inner →
      Spelled before kind (c :: inner)) →
      (∀ {inner}, closing ∉ inner → Spelled before kind (c :: (inner ++ [closing]))) →
      ∃ w rest, cs = w ++ rest ∧ delimitedLength closing cs = w.length + 1 ∧
        Spelled before kind (c :: w) := by
    intro kind closing hopen hclosed
    by_cases hmem : closing ∈ cs
    · obtain ⟨inner, rest, rfl, hinner⟩ := List.eq_append_cons_of_mem hmem
      refine ⟨inner ++ [closing], rest, by simp, ?_, hclosed hinner⟩
      rw [delimitedLength_append hinner, List.length_append]
      rfl
    · exact ⟨cs, [], by simp, delimitedLength_open hmem, hopen hmem⟩
  rcases lexeme_cases h with ⟨rfl, hrule⟩ | ⟨rfl, hrule⟩ | ⟨rfl, hrule⟩ | hrule | ⟨rfl,
    hrule⟩ | hrule | ⟨rfl, hrule⟩ |
    ⟨rfl, hrule⟩ | ⟨rfl, hrule⟩ | ⟨rfl, rfl⟩
  · simp only [gap?, Option.ite_none_left_eq_some, Option.some.injEq] at hrule
    obtain ⟨hn, rfl⟩ := hrule
    obtain ⟨w, rest, rfl, hw⟩ := exists_run (Nat.pos_of_ne_zero hn)
    exact ⟨w, rest, rfl, congrArg List.length hw, .blank⟩
  · unfold string? at hrule
    split at hrule
    · next heq =>
      obtain ⟨rfl, rfl⟩ := List.cons.inj heq
      cases hrule
      exact hdelimited .openString .string
    · cases hrule
  · simp only [number?, Option.ite_none_left_eq_some, Bool.or_eq_true, not_or, decide_eq_true_eq,
      Option.some.injEq] at hrule
    obtain ⟨⟨hn, -⟩, rfl⟩ := hrule
    obtain ⟨w, rest, rfl, hw⟩ := exists_run (Nat.pos_of_ne_zero hn)
    exact ⟨w, rest, rfl, congrArg List.length hw, .number (by simp) fun d hd =>
      mem_takeWhile (hw ▸ hd)⟩
  · obtain ⟨rfl, hpos, hword⟩ := keyword?_kind hrule
    obtain ⟨w, rest, rfl, hw⟩ := exists_run hpos
    have hchars : (word (c :: (w ++ rest))).toList = c :: w := by
      rw [word, hw, String.toList_ofList]
    refine ⟨w, rest, rfl, congrArg List.length hw, hchars ▸ ?_⟩
    rcases hword with ⟨rfl, hword⟩ | ⟨rfl, hword⟩
    · rw [hword]
      exact .null
    · exact .keyword hword
  · simp only [label?, Option.ite_none_right_eq_some, Bool.and_eq_true, beq_iff_eq,
      Option.some.injEq] at hrule
    obtain ⟨⟨hc, hcolon⟩, rfl⟩ := hrule
    obtain ⟨rest, hrest⟩ := exists_behind_run hcolon
    exact ⟨_ ++ [':'], rest,
      by rw [List.append_assoc]; exact hrest, by simp, .label hc fun d hd => mem_takeWhile hd⟩
  · rcases operator?_cases hrule with ⟨rfl, rfl, hpos, hword⟩ | ⟨w, hw, rfl, rfl, hinitial⟩
    · obtain ⟨w, rest, rfl, hw⟩ := exists_run hpos
      have hspelled := Spelled.wordOperator (b := before) hword
      rw [word, hw, String.toList_ofList] at hspelled
      exact ⟨w, rest, rfl, congrArg List.length hw, hspelled⟩
    · obtain ⟨rest, hrest⟩ := List.isPrefixOf_iff_prefix.mp hinitial
      have hall : ∀ w ∈ symbolOperators, w.toList ≠ [] := by decide
      obtain ⟨d, ds, hchars⟩ := List.exists_cons_of_ne_nil (hall w hw)
      have hspelled := Spelled.symbol (b := before) hw rfl
      rw [hchars] at hrest hspelled
      obtain ⟨rfl, rfl⟩ := List.cons.inj hrest
      exact ⟨ds, rest, rfl, by rw [← String.length_toList, hchars]; rfl, hspelled⟩
  · unfold varLength? at hrule
    split at hrule
    · next heq =>
      obtain ⟨rfl, rfl⟩ := List.cons.inj heq
      simp only [Option.ite_none_left_eq_some, Option.some.injEq] at hrule
      obtain ⟨hn, rfl⟩ := hrule
      exact ⟨_, _, List.takeWhile_append_dropWhile.symm, rfl,
        .var (fun hc => hn (by rw [hc]; rfl)) fun d hd => mem_takeWhile hd⟩
    · cases hrule
  · unfold gameObject? at hrule
    split at hrule
    · next heq =>
      obtain ⟨rfl, rfl⟩ := List.cons.inj heq
      cases hrule
      exact hdelimited .openGameObject .gameObject
    · cases hrule
  · unfold scriptObject? at hrule
    split at hrule
    · next d ds heq =>
      obtain ⟨rfl, rfl⟩ := List.cons.inj heq
      simp only [Option.ite_none_right_eq_some, Bool.and_eq_true, beq_iff_eq,
        Option.some.injEq] at hrule
      obtain ⟨⟨hc, hclose⟩, rfl⟩ := hrule
      obtain ⟨rest, hrest⟩ := exists_behind_run hclose
      exact ⟨d :: (_ ++ [']']), rest,
        by rw [List.cons_append, List.append_assoc]; exact congrArg (d :: ·) hrest, by simp,
        .scriptObject hc fun c hc => mem_takeWhile (p := fun c => isNameChar c || c == ' ') hc⟩
    · cases hrule
  · by_cases hpos : 0 < ((c :: cs).takeWhile fun c => !endsText c).length
    · obtain ⟨w, rest, rfl, hw⟩ := exists_run hpos
      exact ⟨w, rest, rfl, by rw [textLength, hw]; simp, .text⟩
    · exact ⟨[], cs, rfl, by rw [textLength, Nat.eq_zero_of_not_pos hpos]; rfl, .text⟩

theorem spelled_of_lexeme (h : lexeme before (c :: cs) = (kind, n)) :
    Spelled before kind (c :: cs.take (n - 1)) := by
  obtain ⟨w, rest, rfl, rfl, hspelled⟩ := exists_spelled h
  rwa [Nat.add_sub_cancel, List.take_left]

theorem lexeme_length_le (h : lexeme before (c :: cs) = (kind, n)) : n ≤ cs.length + 1 := by
  obtain ⟨w, rest, rfl, rfl, -⟩ := exists_spelled h
  simp

/-! ## Cutting a token again

Each rule finds its token at the front of any text that does not go on with it. -/

/-- Only a gap, a string or a number starts with a character of its own. -/
theorem early_rules_fail (hgap : isGap c = false) (hquote : c ≠ '\'') (hdigit : c.isDigit = false)
    (cs : List Char) : gap? (c :: cs) = none ∧ string? (c :: cs) = none ∧
    number? (c :: cs) = none := by
  refine ⟨by simp [gap?, hgap], ?_, by simp [number?, hdigit]⟩
  unfold string?
  split
  · next heq => exact absurd (List.cons.inj heq).1 hquote
  · rfl

/-- The characters that start names start neither gaps, strings nor numbers. -/
theorem early_rules_fail_of_startsName (h : startsName c = true) (cs : List Char) :
    gap? (c :: cs) = none ∧ string? (c :: cs) = none ∧ number? (c :: cs) = none := by
  have hdigit : c.isDigit = false := by
    cases hd : c.isDigit with
    | false => rfl
    | true =>
      simp only [startsName, not_isAlpha_of_isDigit hd, Bool.false_or, beq_iff_eq] at h
      rw [h] at hd
      cases hd
  refine early_rules_fail ?_ (ne_of_class h rfl) hdigit cs
  simp [isGap, ne_of_class (d := ' ') h rfl, ne_of_class (d := '\t') h rfl,
    ne_of_class (d := '\r') h rfl]

theorem startsName_of_isAlpha (h : c.isAlpha = true) : startsName c = true := by
  simp [startsName, h]

theorem isNameChar_of_isAlpha (h : c.isAlpha = true) : isNameChar c = true := by
  simp [isNameChar, Char.isAlphanum, h]

/-- Variables and objects start with a character of their own. -/
theorem late_rules_fail {c : Char} (hdollar : c ≠ '$') (hbrace : c ≠ '{') (hbracket : c ≠ '[')
    (cs : List Char) :
    varLength? (c :: cs) = none ∧ gameObject? (c :: cs) = none ∧
    scriptObject? (c :: cs) = none := by
  refine ⟨?_, ?_, ?_⟩
  · unfold varLength?
    split
    · next heq => exact absurd (List.cons.inj heq).1 hdollar
    · rfl
  · unfold gameObject?
    split
    · next heq => exact absurd (List.cons.inj heq).1 hbrace
    · rfl
  · unfold scriptObject?
    split
    · next heq => exact absurd (List.cons.inj heq).1 hbracket
    · rfl

/-- A letter does not end free text. -/
theorem not_endsText_of_isAlpha (h : c.isAlpha = true) : endsText c = false := by
  have hblank : Text.isBlank c = false := by
    have hrange : (65 ≤ c.val.toNat ∧ c.val.toNat ≤ 90) ∨
        (97 ≤ c.val.toNat ∧ c.val.toNat ≤ 122) := by
      have hclass : (decide (c.val ≥ 'A'.val ∧ c.val ≤ 'Z'.val) || c.val ≥ 'a'.val &&
          c.val ≤ 'z'.val) = true := h
      simp only [Bool.or_eq_true, Bool.and_eq_true, decide_eq_true_eq, ge_iff_le,
        UInt32.le_iff_toNat_le] at hclass
      exact hclass
    simp only [Text.isBlank, Char.toNat, Bool.or_eq_false_iff, Bool.and_eq_false_iff,
      decide_eq_false_iff_not, beq_eq_false_iff_ne]
    omega
  simp [endsText, hblank, ne_of_class (d := '=') h rfl, ne_of_class (d := ',') h rfl,
    ne_of_class (d := '(') h rfl, ne_of_class (d := ')') h rfl, ne_of_class (d := '\'') h rfl,
    ne_of_class (d := '[') h rfl,
    ne_of_class (d := ']') h rfl]

/-- A character goes on with a name exactly if it stands in names. -/
theorem isNameChar_of_head? {rest : List Char} (hrest : continuesName rest = false)
    (hc : rest.head? = some c) : isNameChar c = false := by
  cases rest with
  | nil => cases hc
  | cons d ds =>
    cases hc
    exact hrest

section Again

variable {b : Bool} {rest : List Char}

variable {name : List Char} {w : String}

theorem lexeme_var (hne : name ≠ []) (hname : ∀ c ∈ name, isNameChar c = true)
    (hrest : continuesName rest = false) :
    lexeme b ('$' :: name ++ rest) = (.var, ('$' :: name).length) := by
  have hrun : (name ++ rest).takeWhile isNameChar = name :=
    takeWhile_run hname fun c => isNameChar_of_head? hrest
  have hlength : name.length ≠ 0 := fun h => hne (List.length_eq_zero_iff.mp h)
  have hvar : varLength? ('$' :: (name ++ rest)) = some (name.length + 1) := by
    simp [varLength?, hrun, hlength]
  have hearly := early_rules_fail (c := '$') rfl (by decide) rfl (name ++ rest)
  have hother : keyword? ('$' :: (name ++ rest)) = none ∧ label? ('$' :: (name ++ rest)) = none ∧
      operator? b ('$' :: (name ++ rest)) = none := ⟨rfl, rfl, rfl⟩
  simp [lexeme, hearly, hother, hvar]

theorem lexeme_number {digits : List Char} (hne : digits ≠ [])
    (hdigits : ∀ c ∈ digits, c.isDigit = true) (hrest : continuesName rest = false) :
    lexeme b (digits ++ rest) = (.number, digits.length) := by
  have hrun : (digits ++ rest).takeWhile Char.isDigit = digits := by
    refine takeWhile_run hdigits fun c hc => ?_
    cases hd : c.isDigit with
    | false => rfl
    | true =>
      have hname : isNameChar c = true := by simp [isNameChar, Char.isAlphanum, hd]
      rw [isNameChar_of_head? hrest hc] at hname
      cases hname
  have hlength : digits.length ≠ 0 := fun h => hne (List.length_eq_zero_iff.mp h)
  have hnumber : number? (digits ++ rest) = some digits.length := by
    simp [number?, hrun, hlength, hrest]
  obtain ⟨d, ds, rfl⟩ := List.exists_cons_of_ne_nil hne
  have hd := hdigits d (by simp)
  have hgap : gap? (d :: (ds ++ rest)) = none := by simp [gap?, not_gap_of_isDigit hd]
  have hstring : string? (d :: (ds ++ rest)) = none := by
    unfold string?
    split
    · next heq =>
      rw [(List.cons.inj heq).1] at hd
      cases hd
    · rfl
  rw [List.cons_append] at hnumber ⊢
  simp [lexeme, hgap, hstring, hnumber]

theorem lexeme_quote (cs : List Char) :
    lexeme b ('\'' :: cs) = (.string, delimitedLength '\'' cs) := by
  have hgap : gap? ('\'' :: cs) = none := rfl
  simp [lexeme, hgap, string?]

theorem lexeme_brace (cs : List Char) :
    lexeme b ('{' :: cs) = (.gameObject, delimitedLength '}' cs) := by
  have hearly := early_rules_fail (c := '{') rfl (by decide) rfl cs
  have hother : keyword? ('{' :: cs) = none ∧ label? ('{' :: cs) = none ∧
      operator? b ('{' :: cs) = none ∧
      varLength? ('{' :: cs) = none := ⟨rfl, rfl, rfl, rfl⟩
  simp [lexeme, hearly, hother, gameObject?]

theorem lexeme_scriptObject {c : Char} (hc : startsName c = true)
    (hname : ∀ d ∈ name, (isNameChar d || d == ' ') = true) :
    lexeme b ('[' :: c :: (name ++ ']' :: rest)) = (.scriptObject, name.length + 3) := by
  have hrun : (name ++ ']' :: rest).takeWhile (fun d => isNameChar d || d == ' ') = name := by
    refine takeWhile_run hname fun d hd => ?_
    cases hd
    rfl
  have hobject : scriptObject? ('[' :: c :: (name ++ ']' :: rest)) = some (name.length + 3) := by
    simp [scriptObject?, hrun, hc]
  generalize name ++ ']' :: rest = cs at hobject
  have hearly := early_rules_fail (c := '[') rfl (by decide) rfl (c :: cs)
  have hother : keyword? ('[' :: c :: cs) = none ∧ label? ('[' :: c :: cs) = none ∧
      varLength? ('[' :: c :: cs) = none ∧ gameObject? ('[' :: c :: cs) = none :=
        ⟨rfl, rfl, rfl, rfl⟩
  have hoperator : operator? b ('[' :: c :: cs) = none := by
    have hword : wordLength ('[' :: c :: cs) = 0 := rfl
    have harrow : ['-', '>'].isPrefixOf ('[' :: c :: cs) = false := rfl
    simp only [operator?, hword, harrow, hobject]
    rfl
  simp [lexeme, hearly, hother, hoperator, hobject]

theorem word_append {w : String} (hw : ∀ c ∈ w.toList, c.isAlpha = true)
    (hrest : continuesName rest = false) :
    wordLength (w.toList ++ rest) = w.toList.length ∧ word (w.toList ++ rest) = w := by
  have hrun : (w.toList ++ rest).takeWhile Char.isAlpha = w.toList := by
    refine takeWhile_run hw fun c hc => ?_
    cases ha : c.isAlpha with
    | false => rfl
    | true =>
      have hname := isNameChar_of_isAlpha ha
      rw [isNameChar_of_head? hrest hc] at hname
      cases hname
  rw [wordLength, word, hrun, String.ofList_toList]
  exact ⟨rfl, rfl⟩

theorem lexeme_keyword {kind : TokenKind} {w : String} (hne : w.toList ≠ [])
    (hw : ∀ c ∈ w.toList, c.isAlpha = true) (hkind : (kind = .null ∧ w = "null") ∨
      (kind = .keyword ∧ w ∈ keywords)) (hrest : continuesName rest = false)
    (hcolon : rest.head? ≠ some ':') (hparen : rest.head? ≠ some '(') :
    lexeme b (w.toList ++ rest) = (kind, w.toList.length) := by
  obtain ⟨hlength, hword⟩ := word_append hw hrest
  have hpos : w.toList.length ≠ 0 := fun h => hne (List.length_eq_zero_iff.mp h)
  have hkeyword : keyword? (w.toList ++ rest) = some (kind, w.toList.length) := by
    simp only [keyword?, hlength, List.drop_left, hword]
    rw [if_neg (by simp [hpos, hrest, hcolon, hparen])]
    rcases hkind with ⟨rfl, rfl⟩ | ⟨rfl, hmem⟩
    · rfl
    · have hnull : (w == "null") = false := by
        have hall : ∀ w ∈ keywords, (w == "null") = false := by decide
        exact hall w hmem
      simp [hnull, hmem]
  obtain ⟨c, cs, hcs⟩ := List.exists_cons_of_ne_nil hne
  rw [hcs] at hkeyword hw ⊢
  have hearly :=
    early_rules_fail_of_startsName (startsName_of_isAlpha (hw c (by simp))) (cs ++ rest)
  rw [List.cons_append] at hkeyword ⊢
  simp [lexeme, hearly, hkeyword]

/-- A word that a name or a colon goes on after is no keyword. -/
theorem keyword?_eq_none {cs : List Char} (h : continuesName (cs.drop (wordLength cs)) = true ∨
    (cs.drop (wordLength cs)).head? = some ':') : keyword? cs = none := by
  simp only [keyword?]
  rw [if_pos]
  rcases h with h | h <;> simp [h]

theorem lexeme_label {c : Char} (hc : startsName c = true)
    (hname : ∀ d ∈ name, isNameChar d = true) :
    lexeme b (c :: (name ++ ':' :: rest)) = (.label, name.length + 2) := by
  have hrun : (name ++ ':' :: rest).takeWhile isNameChar = name := by
    refine takeWhile_run hname fun d hd => ?_
    cases hd
    rfl
  have hlabel : label? (c :: (name ++ ':' :: rest)) = some (name.length + 2) := by
    simp [label?, hrun, hc]
  have hearly := early_rules_fail_of_startsName hc (name ++ ':' :: rest)
  -- The letters at the front are followed by the rest of the name or by the colon.
  have hkeyword : keyword? (c :: (name ++ ':' :: rest)) = none := by
    have hall : ∀ d ∈ c :: name, isNameChar d = true := by
      intro d hd
      rcases List.mem_cons.mp hd with rfl | hd
      · simp only [startsName, Bool.or_eq_true, beq_iff_eq] at hc
        rcases hc with hc | rfl
        · exact isNameChar_of_isAlpha hc
        · rfl
      · exact hname d hd
    have hdrop : ∀ w : List Char, (∀ d ∈ w, isNameChar d = true) →
        continuesName ((w ++ ':' :: rest).drop (wordLength (w ++ ':' :: rest))) = true ∨
          ((w ++ ':' :: rest).drop (wordLength (w ++ ':' :: rest))).head? = some ':' := by
      intro w hw
      induction w with
      | nil => exact .inr rfl
      | cons d ds ih =>
        cases hd : d.isAlpha with
        | false => exact .inl (by simpa [wordLength, hd, continuesName] using hw d (by simp))
        | true => simpa [wordLength, hd] using ih fun x hx => hw x (by simp [hx])
    exact keyword?_eq_none (hdrop (c :: name) hall)
  simp [lexeme, hearly, hkeyword, hlabel]

theorem label?_eq_none {w : List Char} (hne : w ≠ []) (hw : ∀ c ∈ w, c.isAlpha = true)
    (hrest : continuesName rest = false) (hcolon : rest.head? ≠ some ':') :
    label? (w ++ rest) = none := by
  obtain ⟨c, cs, rfl⟩ := List.exists_cons_of_ne_nil hne
  have hrun : (cs ++ rest).takeWhile isNameChar = cs :=
    takeWhile_run (fun d hd => isNameChar_of_isAlpha (hw d (by simp [hd]))) fun d =>
      isNameChar_of_head? hrest
  simp only [List.cons_append, label?, hrun, List.drop_left]
  rw [if_neg]
  simp [hcolon]

theorem lexeme_wordOperator (hw : w ∈ wordOperators) (hrest : continuesName rest = false)
    (hcolon : rest.head? ≠ some ':') :
    lexeme b (w.toList ++ rest) = (.binaryOp, w.toList.length) := by
  have hall : ∀ w ∈ wordOperators, w.toList ≠ [] ∧ w.toList.all Char.isAlpha = true ∧
      (w == "null") = false ∧
      keywords.contains w = false := by decide
  obtain ⟨hne, hletters, hnull, hkeywords⟩ := hall w hw
  have halpha := List.all_eq_true.mp hletters
  obtain ⟨hlength, hword⟩ := word_append halpha hrest
  have hpos : w.toList.length ≠ 0 := fun h => hne (List.length_eq_zero_iff.mp h)
  have hkeyword : keyword? (w.toList ++ rest) = none := by
    simp only [keyword?, hlength, List.drop_left, hword, hnull, hkeywords]
    split <;> rfl
  have hoperator : operator? b (w.toList ++ rest) = some (.binaryOp, w.toList.length) := by
    simp only [operator?, hlength, List.drop_left, hword, hrest]
    rw [if_pos hpos, if_pos (by simpa using hw)]
  have hlabel := label?_eq_none hne halpha hrest hcolon
  obtain ⟨c, cs, hcs⟩ := List.exists_cons_of_ne_nil hne
  rw [hcs] at hkeyword hoperator hlabel halpha ⊢
  have hearly :=
    early_rules_fail_of_startsName (startsName_of_isAlpha (halpha c (by simp))) (cs ++ rest)
  rw [List.cons_append] at hkeyword hoperator hlabel ⊢
  simp [lexeme, hearly, hkeyword, hlabel, hoperator]

/-- What may not follow a symbol: it would be read as part of it. -/
theorem operator?_symbol {w : String} (hw : w ∈ symbolOperators)
    (hequals : w ∈ ["=", "!", "<", ">"] → rest.head? ≠ some '=')
    (harrow : w = "-" → rest.head? ≠ some '>')
    (hbracket : w = "[" → scriptObject? ('[' :: rest) = none) :
    operator? b (w.toList ++ rest) = some (operatorKind b w, w.length) := by
  have hne : ∀ {c d : Char} {ds : List Char}, rest = d :: ds → rest.head? ≠ some c →
      (c == d) = false := by
    rintro c d ds rfl h
    rw [beq_eq_false_iff_ne]
    rintro rfl
    exact h rfl
  by_cases hw₁ : w ∈ ["=", "!", "<", ">"]
  · have hhead := hequals hw₁
    simp only [List.mem_cons, List.not_mem_nil, or_false] at hw₁
    cases rest with
    | nil => rcases hw₁ with rfl | rfl | rfl | rfl <;> rfl
    | cons d ds =>
      have hd := hne rfl hhead
      rcases hw₁ with rfl | rfl | rfl | rfl <;>
        simp [operator?, wordLength, scriptObject?, symbolOperators, List.find?,
          List.isPrefixOf, hd]
  by_cases hw₂ : w = "-"
  · have hhead := harrow hw₂
    subst hw₂
    cases rest with
    | nil => rfl
    | cons d ds =>
      have hd := hne rfl hhead
      simp [operator?, wordLength, scriptObject?, symbolOperators, List.find?, List.isPrefixOf, hd]
  by_cases hw₃ : w = "["
  · have hobject := hbracket hw₃
    subst hw₃
    simp [operator?, wordLength, hobject, symbolOperators, List.find?, List.isPrefixOf]
  · have hothers : w ∈ ["==", "!=", "<=", ">=", "+", "*", "/", "&", "|", "^", "~", "(", ")", "]",
        ","] := by
      simp only [symbolOperators, List.mem_cons, List.not_mem_nil, or_false] at hw hw₁ ⊢
      grind
    simp only [List.mem_cons, List.not_mem_nil, or_false] at hothers
    rcases hothers with
      rfl | rfl | rfl | rfl | rfl | rfl | rfl | rfl | rfl | rfl | rfl | rfl | rfl | rfl | rfl <;>
        rfl

theorem lexeme_symbol (hw : w ∈ symbolOperators)
    (h : operator? b (w.toList ++ rest) = some (operatorKind b w, w.length)) :
    lexeme b (w.toList ++ rest) = (operatorKind b w, w.toList.length) := by
  have hall : ∀ w ∈ symbolOperators, ∃ c cs, w.toList = c :: cs ∧ isGap c = false ∧ c ≠ '\'' ∧
      c.isDigit = false ∧
      c.isAlpha = false ∧ startsName c = false := by
    intro w hw
    simp only [symbolOperators, List.mem_cons, List.not_mem_nil, or_false] at hw
    rcases hw with
      rfl | rfl | rfl | rfl | rfl | rfl | rfl | rfl | rfl | rfl | rfl | rfl | rfl | rfl | rfl |
      rfl | rfl | rfl | rfl | rfl | rfl <;>
        exact ⟨_, _, rfl, by decide, by decide, by decide, by decide, by decide⟩
  obtain ⟨c, cs, hcs, hgap, hquote, hdigit, halpha, hstarts⟩ := hall w hw
  rw [← String.length_toList] at h
  rw [hcs, List.cons_append] at h ⊢
  have hearly := early_rules_fail hgap hquote hdigit (cs ++ rest)
  have hkeyword : keyword? (c :: (cs ++ rest)) = none := by simp [keyword?, wordLength, halpha]
  have hlabel : label? (c :: (cs ++ rest)) = none := by simp [label?, hstarts]
  simp [lexeme, hearly, hkeyword, hlabel, h]

structure IsPlainWord (w : String) : Prop where
  nonempty : w.toList ≠ []
  letters : ∀ c ∈ w.toList, c.isAlpha = true
  null : w ≠ "null"
  keyword : w ∉ keywords
  operator : w ∉ wordOperators

theorem lexeme_plainWord (hw : IsPlainWord w) (hrest : ∀ c, rest.head? = some c → endsText c = true)
    (hname : continuesName rest = false) (hcolon : rest.head? ≠ some ':') :
    lexeme b (w.toList ++ rest) = (.text, w.toList.length) := by
  obtain ⟨hlength, hword⟩ := word_append hw.letters hname
  have hpos : w.toList.length ≠ 0 := fun h => hw.nonempty (List.length_eq_zero_iff.mp h)
  have hkeyword : keyword? (w.toList ++ rest) = none := by
    simp only [keyword?, hlength, List.drop_left, hword]
    split
    · rfl
    · rw [if_neg (by simpa using hw.null), if_neg (by simpa using hw.keyword)]
  have hoperator : operator? b (w.toList ++ rest) = none := by
    simp only [operator?, hlength, List.drop_left, hword]
    rw [if_pos hpos, if_neg (by simp [hw.operator])]
  have hlabel := label?_eq_none hw.nonempty hw.letters hname hcolon
  have htext : textLength (w.toList ++ rest) = w.toList.length := by
    have hletter : ∀ c ∈ w.toList, (!endsText c) = true := fun c hc => by
      simp [not_endsText_of_isAlpha (hw.letters c hc)]
    rw [textLength, takeWhile_run hletter fun c hc => by simp [hrest c hc]]
    exact Nat.max_eq_right (Nat.pos_of_ne_zero hpos)
  obtain ⟨c, cs, hcs⟩ := List.exists_cons_of_ne_nil hw.nonempty
  have hc : c.isAlpha = true := hw.letters c (by simp [hcs])
  rw [hcs, List.cons_append] at hkeyword hoperator hlabel htext ⊢
  have hearly := early_rules_fail_of_startsName (startsName_of_isAlpha hc) (cs ++ rest)
  have hlate :=
    late_rules_fail (ne_of_class hc rfl) (ne_of_class hc rfl) (ne_of_class hc rfl) (cs ++ rest)
  simp [lexeme, hearly, hkeyword, hlabel, hoperator, hlate, htext]

theorem lexeme_arrow (hrest : ∀ c, rest.head? = some c → endsText c = true) :
    lexeme b ('-' :: '>' :: rest) = (.text, 2) := by
  have hearly := early_rules_fail (c := '-') rfl (by decide) rfl ('>' :: rest)
  have hother : keyword? ('-' :: '>' :: rest) = none ∧ label? ('-' :: '>' :: rest) = none ∧
      operator? b ('-' :: '>' :: rest) = none := ⟨rfl, rfl, rfl⟩
  have hlate := late_rules_fail (c := '-') (by decide) (by decide) (by decide) ('>' :: rest)
  have hrun : ((['-', '>'] ++ rest).takeWhile fun c => !endsText c) = ['-', '>'] :=
    takeWhile_run (List.all_eq_true.mp (by decide)) fun c hc => by simp [hrest c hc]
  have htext : textLength ('-' :: '>' :: rest) = 2 := by
    rw [textLength, show '-' :: '>' :: rest = ['-', '>'] ++ rest from rfl, hrun]
    rfl
  simp [lexeme, hearly, hother, hlate, htext]

end Again

end GameScript.Token
