import Mathlib.Data.List.Basic
import GameScript.Proofs.Token.Trailing

/-!
# Free text

Free text is what no other rule of the lexer finds, so it is no symbol, number or label, and it is a
keyword only before an opening parenthesis (`scan_free`).
-/

namespace GameScript.Token

def isLabelWord (w : String) : Bool :=
  match w.toList with
  | c :: cs => startsName c && cs.getLast? == some ':' && cs.dropLast.all isNameChar
  | [] => false

structure FreeBefore (t : Token) (ts : List Token) : Prop where
  symbol : t.text ∉ symbolOperators
  digit : t.text ≠ "1"
  label : isLabelWord t.text = false
  /-- A keyword is free text only before a parenthesis. -/
  keyword : t.text ∈ keywords → ∃ u us, ts = u :: us ∧ u.is .binaryOp "(" = true

/-- Free text among the tokens is no word of another kind. -/
def Free : List Token → Prop
  | [] => True
  | t :: ts => (t.kind = .text → t.FreeBefore ts) ∧ Free ts

section

variable {b : Bool} {c : Char} {cs : List Char} {n : Nat}

/-- Where free text is found, no other rule applies. -/
theorem rules_of_text (h : lexeme b cs = (.text, n)) :
    number? cs = none ∧ keyword? cs = none ∧ label? cs = none ∧ operator? b cs = none ∧
    scriptObject? cs = none ∧
      n = textLength cs := by
  have hkeyword : ∀ m, keyword? cs ≠ some (.text, m) := by
    intro m hm
    rcases (keyword?_kind hm).2.2 with ⟨hkind, -⟩ | ⟨hkind, -⟩ <;> cases hkind
  have hoperator : ∀ m, operator? b cs ≠ some (.text, m) := by
    intro m hm
    rcases operator?_kind hm with hkind | hkind <;> cases hkind
  simp only [lexeme, Option.orElse_eq_orElse, Option.orElse_eq_or, Option.getD_eq_iff,
    Option.or_eq_some_iff, Option.or_eq_none_iff, Option.map_eq_some_iff, Option.map_eq_none_iff,
    Prod.mk.injEq, reduceCtorEq, false_and,
    and_false, exists_const, false_or, true_and, hkeyword, hoperator] at h
  exact ⟨h.1.2.2.1, h.1.2.2.2.1, h.1.2.2.2.2.1, h.1.2.2.2.2.2.1, h.1.2.2.2.2.2.2.2.2, h.2.symm⟩

variable {rest : List Char} {w : String}

/-- Free text goes on to a character that ends it. -/
theorem endsText_of_text {w : List Char} (h : lexeme b (w ++ rest) = (.text, w.length))
    (hw : ∀ d, w.head? = some d → endsText d = false) (hne : w ≠ []) :
    ∀ d, rest.head? = some d → endsText d = true := by
  have hlength := (rules_of_text h).2.2.2.2.2
  obtain ⟨c, w, rfl⟩ := List.exists_cons_of_ne_nil hne
  have hc : endsText c = false := hw c rfl
  intro d hd
  -- The run of free text has the length of the word, so what is left is all behind the run.
  have hpos : 0 < ((c :: w ++ rest).takeWhile fun c => !endsText c).length := by simp [hc]
  have hrun : ((c :: w ++ rest).takeWhile fun c => !endsText c).length = (c :: w).length := by
    unfold textLength at hlength
    omega
  have hrest := (List.append_inj List.takeWhile_append_dropWhile hrun).2
  have hbehind := List.head?_dropWhile_not (fun c => !endsText c) (c :: w ++ rest)
  rw [hrest, hd] at hbehind
  simpa using hbehind

theorem not_endsText_of_isNameChar {c : Char} (h : isNameChar c = true) : endsText c = false := by
  simp only [isNameChar, Char.isAlphanum, Bool.or_eq_true, beq_iff_eq] at h
  rcases h with ((halpha | hdigit) | rfl) | rfl
  · exact not_endsText_of_isAlpha halpha
  · have hrange : 48 ≤ c.val.toNat ∧ c.val.toNat ≤ 57 := by
      have hclass : (c.val ≥ '0'.val && c.val ≤ '9'.val) = true := hdigit
      simpa [UInt32.le_iff_toNat_le] using hclass
    have hblank : Text.isBlank c = false := by
      simp only [Text.isBlank, Char.toNat, Bool.or_eq_false_iff, Bool.and_eq_false_iff,
        decide_eq_false_iff_not, beq_eq_false_iff_ne]
      omega
    have hne : ∀ d : Char, d.isDigit = false → c ≠ d := fun d hd => ne_of_class hdigit hd
    simp [endsText, hblank, hne]
  · rfl
  · rfl

theorem continuesName_of_endsText (h : ∀ d, rest.head? = some d → endsText d = true) :
    continuesName rest = false := by
  cases rest with
  | nil => rfl
  | cons d ds =>
    have hd := h d rfl
    cases hname : isNameChar d with
    | false => exact hname
    | true =>
      rw [not_endsText_of_isNameChar hname] at hd
      cases hd

theorem ne_text_of_symbol (hw : w ∈ symbolOperators) :
    lexeme b (w.toList ++ rest) ≠ (.text, w.toList.length) := by
  intro h
  obtain ⟨-, -, -, hoperator, hobject, hlength⟩ := rules_of_text h
  have hletters : ∀ w ∈ symbolOperators, w.toList.head?.map Char.isAlpha = some false := by decide
  have hne : ∀ w ∈ symbolOperators, w.toList ≠ [] := by decide
  have hword : wordLength (w.toList ++ rest) = 0 := by
    have hfirst := hletters w hw
    cases hcs : w.toList with
    | nil => rw [hcs] at hfirst; cases hfirst
    | cons c cs =>
      rw [hcs] at hfirst
      simp only [List.head?_cons, Option.map_some, Option.some.injEq] at hfirst
      simp [wordLength, hfirst]
  simp only [operator?, hword, hobject] at hoperator
  split at hoperator
  · next h => exact h rfl
  · split at hoperator
    · next harrow =>
      have hdash : ∀ w ∈ symbolOperators, w.toList.head? = some '-' → w = "-" := by decide
      obtain ⟨r, hr⟩ := List.isPrefixOf_iff_prefix.mp harrow
      have hhead : w.toList.head? = some '-' := by
        cases hcs : w.toList with
        | nil => exact absurd hcs (hne w hw)
        | cons c cs =>
          rw [hcs] at hr
          rw [List.head?_cons, ← (List.cons.inj hr).1]
      obtain rfl := hdash w hw hhead
      have hrest : rest = '>' :: r := (List.cons.inj hr).2.symm
      have hends :=
        endsText_of_text h (fun d hd => by cases hd; rfl) (by simp) '>' (by rw [hrest]; rfl)
      cases hends
    · split at hoperator
      · next hsome => simp at hsome
      · split at hoperator
        · cases hoperator
        · next hnone =>
          have hself := List.find?_eq_none.mp hnone w hw
          rw [List.isPrefixOf_iff_prefix.mpr (List.prefix_append ..)] at hself
          exact hself rfl

theorem ne_text_of_label (hw : isLabelWord w = true) :
    lexeme b (w.toList ++ rest) ≠ (.text, w.toList.length) := by
  unfold isLabelWord at hw
  split at hw
  · next c cs hcs =>
    simp only [Bool.and_eq_true, beq_iff_eq, List.all_eq_true] at hw
    obtain ⟨⟨hc, hlast⟩, hname⟩ := hw
    have hsplit : cs = cs.dropLast ++ [':'] := by
      rw [List.dropLast_append_getLast? _ hlast]
    have hlexeme : lexeme b (c :: (cs.dropLast ++ ':' :: rest)) = _ := lexeme_label hc hname
    rw [hcs, hsplit, List.cons_append, List.append_assoc, List.singleton_append, hlexeme]
    simp
  · cases hw

theorem ne_text_of_digit : lexeme b ("1".toList ++ rest) ≠ (.text, "1".toList.length) := by
  intro h
  have hrest :=
    continuesName_of_endsText (endsText_of_text h (fun d hd => by cases hd; rfl) (by simp))
  have hnumber : lexeme b ("1".toList ++ rest) = _ :=
    lexeme_number (by simp) (List.all_eq_true.mp (by decide)) hrest
  rw [hnumber] at h
  cases h

/-- A keyword is free text only before a parenthesis. -/
theorem paren_of_keyword (hw : w ∈ keywords)
    (h : lexeme b (w.toList ++ rest) = (.text, w.toList.length)) : ∃ r, rest = '(' :: r := by
  have hall : ∀ w ∈ keywords, w.toList ≠ [] ∧ w.toList.all Char.isAlpha = true := by decide
  obtain ⟨hne, hletters⟩ := hall w hw
  have hletters := List.all_eq_true.mp hletters
  have hends :=
    endsText_of_text h (fun d hd => not_endsText_of_isAlpha (hletters d (List.mem_of_head? hd))) hne
  have hcolon : rest.head? ≠ some ':' := fun hc => by cases hends ':' hc
  cases rest with
  | nil =>
    rw [lexeme_keyword hne hletters (.inr ⟨rfl, hw⟩) rfl hcolon (by simp)] at h
    cases h
  | cons d r =>
    by_cases hparen : d = '('
    · exact ⟨r, by rw [hparen]⟩
    · rw [lexeme_keyword hne hletters (.inr ⟨rfl, hw⟩) (continuesName_of_endsText hends) hcolon
        (by simpa using hparen)] at h
      cases h

end

/-- A parenthesis is found wherever it stands. -/
theorem scan_paren (b : Bool) (cs : List Char) :
    ∃ u us, scan b ('(' :: cs) = u :: us ∧ u.is .binaryOp "(" = true := by
  have hlexeme : lexeme b ('(' :: cs) = (.binaryOp, 1) := by
    have hsymbol : lexeme b ("(".toList ++ cs) = _ :=
      lexeme_symbol (by decide) (operator?_symbol (by decide) (by simp) (by simp) (by simp))
    exact hsymbol.trans (by rfl)
  exact ⟨_, _, scan_cons hlexeme rfl, rfl⟩

theorem freeBefore_of_lexeme {b : Bool} {c : Char} {cs : List Char} {n : Nat}
    (h : lexeme b (c :: cs) = (.text, n)) (offset offset' : Nat) (b' : Bool) :
    (ofChars .text offset (c :: cs.take (n - 1))).bare.FreeBefore
      ((significant (lex offset' b' (cs.drop (n - 1)))).map bare) := by
  obtain ⟨w, rest, rfl, rfl, -⟩ := exists_spelled h
  rw [Nat.add_sub_cancel, List.take_left, List.drop_left]
  have hlexeme : lexeme b ((String.ofList (c :: w)).toList ++ rest) =
      (.text, (String.ofList (c :: w)).toList.length) := by
    rwa [String.toList_ofList]
  have htext : (ofChars .text offset (c :: w)).bare.text = String.ofList (c :: w) := rfl
  generalize String.ofList (c :: w) = w at hlexeme htext
  refine ⟨?_, ?_, ?_, ?_⟩ <;> rw [htext]
  · exact fun hmem => ne_text_of_symbol hmem hlexeme
  · rintro rfl
    exact ne_text_of_digit hlexeme
  · cases hlabel : isLabelWord w with
    | false => rfl
    | true => exact absurd hlexeme (ne_text_of_label hlabel)
  · intro hkeyword
    obtain ⟨r, hr⟩ := paren_of_keyword hkeyword hlexeme
    rw [scan_eq, hr]
    exact scan_paren b' r

/-- The free text of a line is no word of another kind. -/
theorem scan_free (b : Bool) (cs : List Char) : Free (scan b cs) := by
  rw [scan]
  generalize 0 = offset
  fun_induction lex offset b cs with
  | case1 => trivial
  | case2 offset b c cs kind n hlexeme t ih =>
    rw [significant, List.filter_cons]
    split
    · refine ⟨fun htext => ?_, ih⟩
      obtain rfl : kind = .text := htext
      exact freeBefore_of_lexeme hlexeme ..
    · exact ih

end GameScript.Token
