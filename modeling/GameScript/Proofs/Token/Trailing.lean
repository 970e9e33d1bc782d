import GameScript.Proofs.Token.Scan

/-!
# Blanks at the end of a line

Blanks behind the last token of a line change nothing about the tokens before them
(`scan_append_gaps`), except where a string or an object is not closed: it goes on to the end of the
line and takes the blanks (`extended`).
-/

namespace GameScript.Token

def AllGaps (g : List Char) : Prop := ∀ c ∈ g, isGap c = true

/-! ## Rules before blanks -/

section

variable {g : List Char}

theorem takeWhile_append_gaps (hg : AllGaps g) {p : Char → Bool}
    (hp : ∀ c, isGap c = true → p c = false) (cs : List Char) :
    (cs ++ g).takeWhile p = cs.takeWhile p := by
  induction cs with
  | nil =>
    cases g with
    | nil => rfl
    | cons d ds => exact List.takeWhile_cons_of_neg (by simp [hp d (hg d (by simp))])
  | cons c cs ih =>
    cases hc : p c with
    | true => simp [hc, ih]
    | false => simp [hc]

theorem drop_takeWhile_append_gaps (hg : AllGaps g) {p : Char → Bool}
    (hp : ∀ c, isGap c = true → p c = false) (cs : List Char) :
    (cs ++ g).drop ((cs ++ g).takeWhile p).length = cs.drop (cs.takeWhile p).length ++ g := by
  rw [takeWhile_append_gaps hg hp]
  exact List.drop_append_of_le_length (List.takeWhile_sublist p).length_le

/-- Blanks behind a text are no other character. -/
theorem head?_append_gaps (hg : AllGaps g) {d : Char} (hd : isGap d = false) (cs : List Char) :
    (cs ++ g).head? = some d ↔ cs.head? = some d := by
  cases cs with
  | cons c cs => rfl
  | nil =>
    refine ⟨fun h => ?_, fun h => by cases h⟩
    rw [hg d (List.mem_of_head? h)] at hd
    cases hd

/-- A blank between tokens is in no other class of characters. -/
theorem classes_of_isGap {c : Char} (h : isGap c = true) :
    isNameChar c = false ∧ c.isAlpha = false ∧ c.isDigit = false ∧ endsText c = true := by
  simp only [isGap, Bool.or_eq_true, beq_iff_eq] at h
  rcases h with (rfl | rfl) | rfl <;> exact ⟨rfl, rfl, rfl, rfl⟩

theorem continuesName_append_gaps (hg : AllGaps g) (cs : List Char) :
    Token.continuesName (cs ++ g) = Token.continuesName cs := by
  cases cs with
  | cons c cs => rfl
  | nil =>
    cases g with
    | nil => rfl
    | cons d ds => exact (classes_of_isGap (hg d (by simp))).1

theorem isPrefixOf_append_gaps (hg : AllGaps g) {w : List Char} (hw : ∀ c ∈ w, isGap c = false)
    (cs : List Char) :
    w.isPrefixOf (cs ++ g) = w.isPrefixOf cs := by
  induction w generalizing cs with
  | nil => rfl
  | cons d w ih =>
    cases cs with
    | nil =>
      cases g with
      | nil => rfl
      | cons e g =>
        have hne : (d == e) = false := by
          rw [beq_eq_false_iff_ne]
          rintro rfl
          have hd := hw d (by simp)
          rw [hg d (by simp)] at hd
          cases hd
        simp [List.isPrefixOf, hne]
    | cons c cs => simp only [List.cons_append, List.isPrefixOf, ih fun x hx => hw x (by simp [hx])]

theorem number?_append_gaps (hg : AllGaps g) (cs : List Char) : number? (cs ++ g) = number? cs := by
  have hdigit : ∀ c, isGap c = true → c.isDigit = false := fun c hc => (classes_of_isGap hc).2.2.1
  unfold number?
  dsimp only
  rw [drop_takeWhile_append_gaps hg hdigit, continuesName_append_gaps hg,
    takeWhile_append_gaps hg hdigit]

/-- The word at the front of a text does not reach the blanks. -/
theorem word_append_gaps (hg : AllGaps g) (cs : List Char) :
    word (cs ++ g) = word cs ∧ wordLength (cs ++ g) = wordLength cs ∧
      (cs ++ g).drop (wordLength cs) = cs.drop (wordLength cs) ++ g := by
  have halpha : ∀ c, isGap c = true → c.isAlpha = false := fun c hc => (classes_of_isGap hc).2.1
  have hdrop := drop_takeWhile_append_gaps hg halpha cs
  have hrun := takeWhile_append_gaps hg halpha cs
  rw [hrun] at hdrop
  unfold word wordLength
  rw [hrun]
  exact ⟨rfl, rfl, hdrop⟩

theorem keyword?_append_gaps (hg : AllGaps g) (cs : List Char) :
    keyword? (cs ++ g) = keyword? cs := by
  obtain ⟨hword, hlength, hdrop⟩ := word_append_gaps hg cs
  have hhead : ∀ d, isGap d = false → ((cs.drop (wordLength cs) ++ g).head? == some d) =
      ((cs.drop (wordLength cs)).head? == some d) := by
    intro d hd
    rw [Bool.eq_iff_iff, beq_iff_eq, beq_iff_eq]
    exact head?_append_gaps hg hd _
  unfold keyword?
  dsimp only
  rw [hword, hlength, hdrop, continuesName_append_gaps hg, hhead ':' rfl, hhead '(' rfl]

theorem label?_append_gaps (hg : AllGaps g) (c : Char) (cs : List Char) :
    label? (c :: (cs ++ g)) = label? (c :: cs) := by
  have hname : ∀ c, isGap c = true → isNameChar c = false := fun c hc => (classes_of_isGap hc).1
  have hhead : ((cs.drop (cs.takeWhile isNameChar).length ++ g).head? == some ':') =
      ((cs.drop (cs.takeWhile isNameChar).length).head? == some ':') := by
    rw [Bool.eq_iff_iff, beq_iff_eq, beq_iff_eq]
    exact head?_append_gaps hg rfl _
  unfold label?
  dsimp only
  rw [drop_takeWhile_append_gaps hg hname, takeWhile_append_gaps hg hname, hhead]

theorem varLength?_append_gaps (hg : AllGaps g) (c : Char) (cs : List Char) :
    varLength? (c :: (cs ++ g)) = varLength? (c :: cs) := by
  have hname : ∀ c, isGap c = true → isNameChar c = false := fun c hc => (classes_of_isGap hc).1
  by_cases hc : c = '$'
  · subst hc
    simp only [varLength?]
    rw [takeWhile_append_gaps hg hname]
  · simp [varLength?, hc]

/-- A run of characters that ends at a bracket does not reach the blanks behind the text. -/
theorem closed_append_gaps (hg : AllGaps g) (p : Char → Bool) (cs : List Char) :
    (((cs ++ g).drop ((cs ++ g).takeWhile p).length).head? == some ']') =
        ((cs.drop (cs.takeWhile p).length).head? == some ']') ∧
      ((cs.drop (cs.takeWhile p).length).head? = some ']' →
        ((cs ++ g).takeWhile p).length = (cs.takeWhile p).length) := by
  induction cs with
  | nil =>
    refine ⟨?_, by simp⟩
    rw [List.nil_append, Bool.eq_iff_iff, beq_iff_eq, beq_iff_eq]
    refine ⟨fun h => ?_, fun h => by simp at h⟩
    have hgap := hg ']' (List.mem_of_mem_drop (List.mem_of_head? h))
    cases hgap
  | cons c cs ih =>
    cases hc : p c with
    | true => simpa [hc] using ih
    | false => simp [hc]

/-- The name of a script object may have blanks in it, but it is closed by a bracket. -/
theorem scriptObject?_append_gaps (hg : AllGaps g) (c : Char) (cs : List Char) :
    scriptObject? (c :: (cs ++ g)) = scriptObject? (c :: cs) := by
  by_cases hc : c = '['
  · subst hc
    cases cs with
    | nil =>
      cases g with
      | nil => rfl
      | cons d g =>
        have hd : startsName d = false := by
          have hclasses := classes_of_isGap (hg d (by simp))
          have hunderscore : d ≠ '_' := fun h => by rw [h] at hclasses; cases hclasses.1
          simp [startsName, hclasses.2.1, hunderscore]
        simp [scriptObject?, hd]
    | cons d cs =>
      have hclosed := closed_append_gaps hg (fun c => isNameChar c || c == ' ') cs
      simp only [List.cons_append, scriptObject?]
      cases hbracket : (cs.drop (cs.takeWhile fun c => isNameChar c || c == ' ').length).head? ==
        some ']' with
      | true => rw [hclosed.1, hbracket, hclosed.2 (beq_iff_eq.mp hbracket)]
      | false => rw [hclosed.1, hbracket, Bool.and_false, if_neg (by simp), if_neg (by simp)]
  · have hnone : ∀ cs, scriptObject? (c :: cs) = none := fun cs => by simp [scriptObject?, hc]
    rw [hnone, hnone]

theorem operator?_append_gaps (hg : AllGaps g) (b : Bool) (c : Char) (cs : List Char) :
    operator? b (c :: (cs ++ g)) = operator? b (c :: cs) := by
  obtain ⟨hword, hlength, hdrop⟩ := word_append_gaps hg (c :: cs)
  rw [List.cons_append] at hword hlength hdrop
  have hsymbols : ∀ w ∈ symbolOperators, w.toList.all (fun c => !isGap c) = true := by decide
  have hfind : ∀ ws ⊆ symbolOperators, (ws.find? fun w => w.toList.isPrefixOf (c :: (cs ++ g))) =
      ws.find? fun w => w.toList.isPrefixOf (c :: cs) := by
    intro ws hws
    induction ws with
    | nil => rfl
    | cons w ws ih =>
      have hw : ∀ d ∈ w.toList, isGap d = false := fun d hd => by
        simpa using List.all_eq_true.mp (hsymbols w (hws (by simp))) d hd
      have hfirst := isPrefixOf_append_gaps hg hw (c :: cs)
      rw [List.cons_append] at hfirst
      rw [List.find?_cons, List.find?_cons, hfirst, ih fun x hx => hws (by simp [hx])]
  have harrow : ['-', '>'].isPrefixOf (c :: (cs ++ g)) = ['-', '>'].isPrefixOf (c :: cs) :=
    isPrefixOf_append_gaps hg (fun d hd => by simp at hd; rcases hd with rfl | rfl <;> rfl)
      (c :: cs)
  unfold operator?
  dsimp only
  rw [hword, hlength, hdrop, continuesName_append_gaps hg, harrow, scriptObject?_append_gaps hg,
    hfind _ fun _ h => h]

theorem textLength_append_gaps (hg : AllGaps g) (cs : List Char) :
    textLength (cs ++ g) = textLength cs := by
  unfold textLength
  rw [takeWhile_append_gaps hg fun c hc => by simp [(classes_of_isGap hc).2.2.2]]

/-- Blanks at the end change no token but a string or an object. -/
theorem lexeme_append_gaps (hg : AllGaps g) (b : Bool) {c : Char} (cs : List Char)
    (hgap : isGap c = false) (hquote : c ≠ '\'') (hbrace : c ≠ '{') :
    lexeme b (c :: (cs ++ g)) = lexeme b (c :: cs) := by
  have hnumber := number?_append_gaps hg (c :: cs)
  have hkeyword := keyword?_append_gaps hg (c :: cs)
  have htext := textLength_append_gaps hg (c :: cs)
  rw [List.cons_append] at hnumber hkeyword htext
  have hgaps : ∀ cs, gap? (c :: cs) = none := fun cs => by simp [gap?, hgap]
  have hstring : ∀ cs, string? (c :: cs) = none := fun cs => by simp [string?, hquote]
  have hobject : ∀ cs, gameObject? (c :: cs) = none := fun cs => by simp [gameObject?, hbrace]
  unfold lexeme
  dsimp only
  rw [hgaps, hgaps, hstring, hstring, hobject, hobject, hnumber, hkeyword, htext,
    label?_append_gaps hg, varLength?_append_gaps hg, scriptObject?_append_gaps hg,
    operator?_append_gaps hg]

end

/-! ## Tokens before blanks -/

/-- Only blanks are found where a blank stands. -/
theorem isSignificant_of_lexeme {b : Bool} {c : Char} {cs : List Char} {kind : TokenKind} {n : Nat}
    (h : lexeme b (c :: cs) = (kind, n)) (hgap : isGap c = false) : kind.isSignificant = true := by
  rcases lexeme_cases h with ⟨-, h⟩ | ⟨rfl, -⟩ | ⟨rfl, -⟩ | h | ⟨rfl, -⟩ | h | ⟨rfl, -⟩ | ⟨rfl,
    -⟩ | ⟨rfl, -⟩ | ⟨rfl, -⟩
  · simp [gap?, hgap] at h
  · rfl
  · rfl
  · rcases (keyword?_kind h).2.2 with ⟨rfl, -⟩ | ⟨rfl, -⟩ <;> rfl
  · rfl
  · rcases operator?_kind h with rfl | rfl <;> rfl
  all_goals rfl

def extended (g : List Char) (t : Token) : Token :=
  if t.isOpen then { t with text := t.text ++ String.ofList g } else t

section

variable {g : List Char}

theorem scan_gaps (hg : AllGaps g) (b : Bool) : scan b g = [] := by
  induction g with
  | nil => exact scan_nil b
  | cons c g ih =>
    rw [scan_gap (hg c (by simp))]
    exact ih fun d hd => hg d (by simp [hd])

/-- The first token of a text, if it ends before the blanks. -/
theorem scan_cons_append_gaps {b : Bool} {c : Char} {cs : List Char} {kind : TokenKind} {n : Nat}
    (h : lexeme b (c :: cs) = (kind, n)) (h' : lexeme b (c :: (cs ++ g)) = (kind, n))
    (hkind : kind.isSignificant = true)
    (hopen : (ofChars kind 0 (c :: cs.take (n - 1))).isOpen = false)
    (ih : ∀ b, scan b (cs.drop (n - 1) ++ g) = (scan b (cs.drop (n - 1))).map (extended g)) :
    scan b (c :: (cs ++ g)) = (scan b (c :: cs)).map (extended g) := by
  have hle : n - 1 ≤ cs.length := by
    have := lexeme_length_le h
    omega
  rw [scan_cons h hkind, scan_cons h' hkind, List.take_append_of_le_length hle,
    List.drop_append_of_le_length hle, List.map_cons, ih]
  congr 1
  have hclosed : (ofChars kind 0 (c :: cs.take (n - 1))).bare.isOpen = false := hopen
  exact (if_neg (by rw [hclosed]; simp)).symm

/-- The first token of a text, if it is delimited. -/
theorem scan_delimited_append_gaps (hg : AllGaps g) {b : Bool} {opening closing : Char}
    {cs : List Char} {kind : TokenKind} (hlexeme : ∀ cs, lexeme b (opening :: cs) =
      (kind, delimitedLength closing cs))
    (hclosing : isGap closing = false) (hkind : kind.isSignificant = true)
    (hopen : ∀ cs, (ofChars kind 0 (opening :: cs)).isOpen = !cs.contains closing)
    (ih : ∀ n b, scan b (cs.drop n ++ g) = (scan b (cs.drop n)).map (extended g)) :
    scan b (opening :: (cs ++ g)) = (scan b (opening :: cs)).map (extended g) := by
  by_cases hmem : closing ∈ cs
  · obtain ⟨inner, rest, rfl, hinner⟩ := List.eq_append_cons_of_mem hmem
    have htake : (inner ++ closing :: rest).take (inner.length + 2 - 1) = inner ++ [closing] := by
      rw [List.append_cons]
      exact List.take_left' (by simp)
    have hfirst : ∀ tail, lexeme b (opening :: (inner ++ closing :: tail)) =
        (kind, inner.length + 2) := fun tail => by
      rw [hlexeme, delimitedLength_append hinner]
    refine scan_cons_append_gaps (hfirst rest) ?_ hkind ?_ fun b => ih _ b
    · rw [List.append_assoc]
      exact hfirst (rest ++ g)
    · rw [hopen, htake]
      simp
  · have hgaps : closing ∉ cs ++ g := by
      intro hc
      have := hg closing ((List.mem_append.mp hc).resolve_left hmem)
      rw [hclosing] at this
      cases this
    rw [scan_cons (hlexeme cs) hkind, scan_cons (hlexeme (cs ++ g)) hkind,
      delimitedLength_open hmem, delimitedLength_open hgaps, Nat.add_sub_cancel, Nat.add_sub_cancel,
      List.take_length, List.take_length,
      List.drop_length, List.drop_length, scan_nil, scan_nil]
    have hisOpen : (ofChars kind 0 (opening :: cs)).bare.isOpen = true :=
      (hopen cs).trans (by simpa using hmem)
    have htext : String.ofList (opening :: (cs ++ g)) = String.ofList (opening :: cs) ++
        String.ofList g := by
      rw [← String.ofList_append, List.cons_append]
    simp only [List.map_cons, List.map_nil, extended, if_pos hisOpen]
    simp only [ofChars, bare, htext]

/-- Blanks at the end of a text change its tokens only where one is not closed. -/
theorem scan_append_gaps (hg : AllGaps g) (b : Bool) (cs : List Char) :
    scan b (cs ++ g) = (scan b cs).map (extended g) := by
  induction hlength : cs.length using Nat.strongRecOn generalizing b cs with
  | _ k ih =>
    cases cs with
    | nil => rw [List.nil_append, scan_gaps hg, scan_nil, List.map_nil]
    | cons c cs =>
      have ih : ∀ n b, scan b (cs.drop n ++ g) = (scan b (cs.drop n)).map (extended g) := by
        intro n b
        refine ih (cs.drop n).length ?_ b _ rfl
        rw [← hlength, List.length_cons, List.length_drop]
        omega
      rw [List.cons_append]
      by_cases hgap : isGap c = true
      · rw [scan_gap hgap, scan_gap hgap]
        exact ih 0 b
      · have hgap : isGap c = false := by simpa using hgap
        by_cases hquote : c = '\''
        · subst hquote
          exact scan_delimited_append_gaps hg lexeme_quote rfl rfl (fun cs =>
            by simp [isOpen, ofChars]) ih
        · by_cases hbrace : c = '{'
          · subst hbrace
            exact scan_delimited_append_gaps hg lexeme_brace rfl rfl (fun cs =>
              by simp [isOpen, ofChars]) ih
          · rcases hlexeme : lexeme b (c :: cs) with ⟨kind, n⟩
            have hlexeme' := (lexeme_append_gaps hg b cs hgap hquote hbrace).trans hlexeme
            refine scan_cons_append_gaps hlexeme hlexeme' (isSignificant_of_lexeme hlexeme hgap) ?_
              fun b => ih _ b
            obtain ⟨hstring, hobject⟩ := opening_of_lexeme hlexeme
            simp [isOpen, ofChars, mt hstring hquote, mt hobject hbrace]

end

end GameScript.Token
