import GameScript.Proofs.Statement.Places
import GameScript.Proofs.Statement.Wording

/-!
# Reading lines as they are displayed

A line is displayed with canonical spacing if it is a command, and without the blanks at its ends
otherwise. Read again, it is the same statement (`read_display`), if the spacing joins none of its
tokens to another one (`Token.Separate`) and the blanks at its ends are blanks between tokens
(`Steady`).
-/

namespace GameScript

/-! ## Blanks at the ends -/

namespace Text

variable {p : Char → Bool} {cs : List Char}

theorem dropLeft_append {g : List Char} (hg : ∀ c ∈ g, p c = true) (cs : List Char) :
    dropLeft p (g ++ cs) = dropLeft p cs := List.dropWhile_append_of_pos hg

theorem dropLeft_eq (h : ∀ c, cs.head? = some c → p c = false) : dropLeft p cs = cs := by
  cases cs with
  | nil => rfl
  | cons c cs => exact List.dropWhile_cons_of_neg (by simp [h c rfl])

theorem dropRight_eq (h : ∀ c, cs.getLast? = some c → p c = false) : dropRight p cs = cs := by
  have hreverse : dropLeft p cs.reverse = cs.reverse :=
    dropLeft_eq fun c hc => h c (by rwa [List.head?_reverse] at hc)
  rw [dropRight, show cs.reverse.dropWhile p = _ from hreverse, List.reverse_reverse]

theorem head?_dropLeft (cs : List Char) : ∀ c, (dropLeft p cs).head? = some c → p c = false := by
  intro c hc
  have hstop := List.head?_dropWhile_not p cs
  rwa [show (cs.dropWhile p).head? = some c from hc] at hstop

theorem getLast?_dropRight (cs : List Char) :
    ∀ c, (dropRight p cs).getLast? = some c → p c = false := by
  intro c hc
  rw [dropRight, List.getLast?_reverse] at hc
  exact head?_dropLeft _ c hc

theorem exists_dropRight (p : Char → Bool) (cs : List Char) :
    ∃ g, (∀ c ∈ g, p c = true) ∧ cs = dropRight p cs ++ g := by
  refine ⟨(cs.reverse.takeWhile p).reverse, fun c hc =>
    Token.mem_takeWhile (List.mem_reverse.mp hc), ?_⟩
  unfold dropRight
  rw [← List.reverse_append, List.takeWhile_append_dropWhile, List.reverse_reverse]

theorem exists_dropLeft (p : Char → Bool) (cs : List Char) :
    ∃ g, (∀ c ∈ g, p c = true) ∧ cs = g ++ dropLeft p cs :=
  ⟨cs.takeWhile p, fun _ => Token.mem_takeWhile, List.takeWhile_append_dropWhile.symm⟩

/-- What is left of a text starts like it. -/
theorem head?_of_dropRight {c : Char} (h : (dropRight p cs).head? = some c) :
    cs.head? = some c := by
  obtain ⟨g, -, hg⟩ := exists_dropRight p cs
  rw [hg, List.head?_append, h]
  rfl

theorem head?_trimChars (cs : List Char) : ∀ c, (trimChars cs).head? = some c → isBlank c = false :=
  fun c hc => head?_dropLeft cs c (head?_of_dropRight hc)

/-- Trimming a trimmed text, with blanks before it, gives it back. -/
theorem trimChars_append_trimChars {g : List Char} (hg : ∀ c ∈ g, isBlank c = true)
    (cs : List Char) :
    trimChars (g ++ trimChars cs) = trimChars cs := by
  rw [trimChars, dropLeft_append hg, dropLeft_eq (head?_trimChars cs)]
  exact dropRight_eq (getLast?_dropRight _)

def trimGaps (cs : List Char) : List Char := dropRight Token.isGap (dropLeft Token.isGap cs)

end Text

namespace Token

theorem isBlank_of_isGap {c : Char} (h : isGap c = true) : Text.isBlank c = true := by
  simp only [isGap, Bool.or_eq_true, beq_iff_eq] at h
  rcases h with (rfl | rfl) | rfl <;> rfl

theorem scan_append_left {g : List Char} (hg : AllGaps g) (b : Bool) (cs : List Char) :
    scan b (g ++ cs) = scan b cs := by
  induction g with
  | nil => rfl
  | cons c g ih =>
    rw [List.cons_append, scan_gap (hg c (by simp))]
    exact ih fun d hd => hg d (by simp [hd])

/-- The tokens of a text are those of the text without the blanks at its ends, except where one is
not closed. -/
theorem scan_eq_scan_trimGaps (b : Bool) (cs : List Char) :
    ∃ g, AllGaps g ∧ scan b cs = (scan b (Text.trimGaps cs)).map (extended g) := by
  obtain ⟨g₁, hg₁, hsplit₁⟩ := Text.exists_dropLeft isGap cs
  obtain ⟨g₂, hg₂, hsplit₂⟩ := Text.exists_dropRight isGap (Text.dropLeft isGap cs)
  refine ⟨g₂, hg₂, ?_⟩
  calc scan b cs = scan b (Text.dropLeft isGap cs) := by
        conv => lhs; rw [hsplit₁]
        exact scan_append_left hg₁ b _
    _ = scan b (Text.trimGaps cs ++ g₂) := congrArg (scan b) hsplit₂
    _ = (scan b (Text.trimGaps cs)).map (extended g₂) := scan_append_gaps hg₂ b _

/-! ## Comment marks -/

def stripped (line : String) : List Char := line.toList.dropWhile isGap

theorem head?_stripped (line : String) : ∀ c, (stripped line).head? = some c → isGap c = false :=
  Text.head?_dropLeft line.toList

variable {line : String} {cs : List Char}

theorem stripped_append {line' : String} (hgaps : AllGaps line'.toList)
    (h : ∀ c, line.toList.head? = some c → isGap c = false) :
    stripped (line' ++ line) = line.toList := by
  rw [stripped, String.toList_append]
  exact (Text.dropLeft_append hgaps _).trans (Text.dropLeft_eq h)

/-- A line is commented out exactly if a comment mark stands behind its leading blanks. -/
theorem isSome_comment? (line : String) :
    (comment? (tokenize line false)).isSome = ((stripped line).head? == some '*') := by
  have hlex : ∀ offset cs, comment? (lex offset false cs) = none := by
    intro offset cs
    rw [comment?, List.find?_eq_none]
    intro t ht hc
    obtain ⟨b, hspelled⟩ := lex_spelled _ _ _ t ht
    have hshaped := hspelled.shaped rfl rfl
    simp only [beq_iff_eq] at hc
    simp [Shaped, hc] at hshaped
  have hbody : ∀ offset cs, (comment? (lexBody false offset cs)).isSome =
      (cs.head? == some '*') := by
    intro offset cs
    unfold lexBody
    split
    · rfl
    · next hmark =>
      rw [hlex]
      cases cs with
      | nil => rfl
      | cons c cs =>
        have hc : c ≠ '*' := by
          rintro rfl
          exact hmark cs rfl
        simp [hc]
  unfold tokenize stripped
  dsimp only
  split
  · next h => rw [dropWhile_of_takeWhile_eq_nil h, hbody]
  · exact hbody ..

theorem code_of_mark (h : stripped line = '*' :: cs) : code line = cs := by
  rw [code, show line.toList.dropWhile isGap = _ from h]
  rfl

theorem code_of_no_mark (h : (stripped line).head? ≠ some '*') : code line = stripped line := by
  rw [code, show line.toList.dropWhile isGap = stripped line from rfl]
  unfold afterMark
  split
  · next heq =>
    rw [heq] at h
    exact absurd rfl h
  · rfl

/-! ## Tokens of canonical text -/

/-- Canonical spacing joins the token to none of the tokens `ts` behind it. -/
structure SeparateBefore (t : Token) (ts : List Token) : Prop where
  /-- A minus sign and `>` are an arrow. -/
  minus : t.is .unaryOp "-" = true → (join ts).toList.head? ≠ some '>'
  /-- An exclamation mark and `=` are a comparison. -/
  negation : t.is .unaryOp "!" = true → (join ts).toList.head? ≠ some '='
  /-- An index that is a name is a script object. -/
  bracket : t.is .binaryOp "[" = true → scriptObject? ('[' :: (join ts).toList) = none

/-- Canonical spacing joins none of the tokens to another one. -/
def Separate : List Token → Prop
  | [] => True
  | t :: ts => t.SeparateBefore ts ∧ Separate ts

instance (t : Token) (ts : List Token) : Decidable (t.SeparateBefore ts) :=
  decidable_of_iff ((t.is .unaryOp "-" = true → (join ts).toList.head? ≠ some '>') ∧
    (t.is .unaryOp "!" = true → (join ts).toList.head? ≠ some '=') ∧
    (t.is .binaryOp "[" = true → scriptObject? ('[' :: (join ts).toList) = none))
    ⟨fun h => ⟨h.1, h.2.1, h.2.2⟩, fun h => ⟨h.minus, h.negation, h.bracket⟩⟩

instance decidableSeparate : (ts : List Token) → Decidable (Separate ts)
  | [] => .isTrue trivial
  | t :: ts =>
    have := decidableSeparate ts
    inferInstanceAs (Decidable (t.SeparateBefore ts ∧ Separate ts))

theorem Separate.firm {ts : List Token} (h : Separate ts)
    (htext : ∀ t ∈ ts, t.kind = .text → IsPlainWord t.text ∨ t.text = "->") : Firm ts := by
  induction ts with
  | nil => trivial
  | cons t ts ih =>
    exact ⟨⟨htext t (by simp), h.1.minus, h.1.negation, h.1.bracket⟩, ih h.2 fun u hu =>
      htext u (by simp [hu])⟩

theorem free_map_bare {ts : List Token} (h : Free (ts.map bare)) : Free ts := by
  induction ts with
  | nil => trivial
  | cons t ts ih =>
    refine ⟨fun htext => ?_, ih h.2⟩
    have hbefore := h.1 htext
    refine ⟨hbefore.symbol, hbefore.digit, hbefore.label, fun hkeyword => ?_⟩
    obtain ⟨u, us, hus, hparen⟩ := hbefore.keyword hkeyword
    cases ts with
    | nil => cases hus
    | cons v vs =>
      obtain ⟨rfl, -⟩ := List.cons.inj hus
      exact ⟨v, vs, rfl, hparen⟩

theorem free_significant (line : String) : Free (significant (tokenize line false)) := by
  apply free_map_bare
  rw [significant_tokenize]
  exact scan_free ..

/-- The first token of a line starts with the first character behind the blanks. -/
theorem head?_join_scan {b : Bool} {c : Char} (hc : isGap c = false) :
    (join (scan b (c :: cs))).toList.head? = some c := by
  rcases hlexeme : lexeme b (c :: cs) with ⟨kind, n⟩
  rw [scan_cons hlexeme (isSignificant_of_lexeme hlexeme hc), join_cons, String.toList_append]
  simp [ofChars, bare]

/-- A text without tokens is blank. -/
theorem trimChars_of_scan (h : scan false cs = []) : Text.trimChars cs = [] := by
  obtain ⟨g, hgaps, hsplit⟩ := Text.exists_dropLeft isGap cs
  cases hrest : Text.dropLeft isGap cs with
  | nil =>
    rw [hrest, List.append_nil] at hsplit
    have hblank := Text.dropLeft_append (fun c hc => isBlank_of_isGap (hgaps c hc)) []
    rw [List.append_nil, ← hsplit] at hblank
    rw [Text.trimChars, hblank]
    rfl
  | cons c rest =>
    -- a first token would start with `c`
    have hc : isGap c = false := Text.head?_dropLeft cs c (by rw [hrest]; rfl)
    have hhead : (join (scan false (c :: rest))).toList.head? = some c := head?_join_scan hc
    rw [← hrest, ← scan_append_left hgaps, ← hsplit, h] at hhead
    cases hhead

end Token

/-! ## Commands of canonical text -/

/-- No word of a template starts like a string or an object. -/
theorem head?_templateWord {w : String} (h : isTemplateWord w = true) {c : Char}
    (hc : w.toList.head? = some c) :
    c ≠ '\'' ∧ c ≠ '{' := by
  have hletter : Token.startsName c = true → c ≠ '\'' ∧ c ≠ '{' := by
    intro h
    constructor <;> rintro rfl <;> cases h
  have hmember : ∀ ws : List String, w ∈ ws →
      (ws.all fun w => w.toList.head? != some '\'' && w.toList.head? != some '{') = true →
      c ≠ '\'' ∧ c ≠ '{' := by
    intro ws hw hall
    have hhead := List.all_eq_true.mp hall w hw
    rw [hc] at hhead
    simpa using hhead
  simp only [isTemplateWord, Bool.or_eq_true, Token.isPlainWord_iff, beq_iff_eq,
    List.contains_iff_mem] at h
  rcases h with ((((hplain | harrow) | hkeyword) | hlabel) | hdigit) | hsymbol
  · refine hletter ?_
    rw [Token.startsName, hplain.letters c (List.mem_of_mem_head? hc), Bool.true_or]
  · exact hmember ["->"] (by simp [harrow]) (by decide)
  · exact hmember _ hkeyword (by decide)
  · refine hletter ?_
    unfold Token.isLabelWord at hlabel
    split at hlabel
    · next d ds hd =>
      rw [hd, List.head?_cons, Option.some.injEq] at hc
      simp only [Bool.and_eq_true] at hlabel
      exact hc ▸ hlabel.1.1
    · cases hlabel
  · exact hmember ["1"] (by simp [hdigit]) (by decide)
  · exact hmember _ hsymbol (by decide)

namespace Token

/-- A token without its closing mark is a string or an object. -/
theorem head?_of_isOpen {t : Token} (ht : t.Shaped) (h : t.isOpen = true) :
    t.kind.isOperand = true ∧ ∃ c cs, t.text.toList = c :: cs ∧ (c = '\'' ∨ c = '{') := by
  simp only [isOpen, Bool.or_eq_true, Bool.and_eq_true, beq_iff_eq] at h
  rcases h with ⟨hkind, -⟩ | ⟨hkind, -⟩
  · simp only [Shaped, hkind] at ht
    obtain ⟨cs, hcs⟩ := ht
    exact ⟨by rw [hkind]; rfl, '\'', cs, hcs, .inl rfl⟩
  · simp only [Shaped, hkind] at ht
    obtain ⟨cs, hcs⟩ := ht
    exact ⟨by rw [hkind]; rfl, '{', cs, hcs, .inr rfl⟩

/-- The blanks that a token takes if it is not closed make no other token of it. -/
theorem renames_extended {e : Entry} (he : e.Worded) {t : Token} (ht : t.Shaped) (g : List Char) :
    t.Renames (extended g) e.words := by
  cases hopen : t.isOpen with
  | false =>
    have hsame : extended g t = t := by
      rw [extended, hopen]
      rfl
    exact ⟨by rw [hsame], fun _ => by rw [hsame], fun _ _ => by rw [hsame]⟩
  | true =>
    obtain ⟨hoperand, c, cs, hcs, hc⟩ := head?_of_isOpen ht hopen
    have hmore : extended g t = { t with text := t.text ++ String.ofList g } := by
      rw [extended, if_pos hopen]
    -- neither text is a word, since both start like an operand
    have hne : ∀ w ∈ e.words, w.toList.head? ≠ some c := by
      intro w hw hhead
      have hclass := head?_templateWord (he.words w hw) hhead
      rcases hc with rfl | rfl
      · exact hclass.1 rfl
      · exact hclass.2 rfl
    refine ⟨by rw [hmore], fun h => ?_, fun w hw => ⟨fun h => ?_, fun h => ?_⟩⟩
    · rw [hoperand] at h
      cases h
    · rw [hmore] at h
      exact absurd (by simp [← h, String.toList_append, hcs]) (hne w hw)
    · exact absurd (by simp [← h, hcs]) (hne w hw)

end Token

/-- The blanks at the end of a line make no command of it. -/
theorem recognise?_trimGaps (v : Version) (cs : List Char) :
    Grammar.builtin.recognise? v (Token.scan false cs) = none ↔
      Grammar.builtin.recognise? v (Token.scan false (Text.trimGaps cs)) = none := by
  obtain ⟨g, -, hscan⟩ := Token.scan_eq_scan_trimGaps false cs
  have hshaped : ∀ t ∈ Token.scan false (Text.trimGaps cs), t.Shaped := by
    intro t ht
    obtain ⟨u, hu, rfl⟩ := List.mem_map.mp ht
    obtain ⟨b, hspelled⟩ := Token.lex_spelled _ _ _ u (List.mem_filter.mp hu).1
    exact hspelled.shaped rfl rfl
  rw [hscan, Grammar.recognise?_map v fun e he => Entry.fit?_map fun t ht =>
    Token.renames_extended (builtin_worded e he) (hshaped t ht) g, Option.map_eq_none_iff]

section

variable {v : Version} {ts : List Token} {r : Recognition}

/-- A command of the built-in table is its template, filled with what its parameters take. -/
theorem fills_of_recognise? (h : Grammar.builtin.recognise? v ts = some r) :
    r.entry.Worded ∧ Fills (r.fit.parameters r.entry.form) r.entry.pieces ts ∧
      ∀ p ∈ r.fit.parameters r.entry.form, p.kind.Takes p.tokens := by
  obtain ⟨hmem, hfit⟩ := Recognition.of_recognise? h
  have hworded := builtin_worded _ hmem
  exact ⟨hworded, Entry.fills_of_fit hfit hworded.placeholders,
    fun p hp => (Recognition.takes h (builtin_lawful.lawful _ hmem) hp).1⟩

/-- A command is displayed as the tokens of its line, with canonical spacing. -/
theorem render_of_recognise? (h : Grammar.builtin.recognise? v ts = some r)
    (hcut : Token.Cut false ts) :
    r.entry.render (r.fit.parameters r.entry.form) = Token.join ts := by
  obtain ⟨hworded, hfills, htakes⟩ := fills_of_recognise? h
  exact hworded.render_eq hfills htakes (Recognition.kinds h) hcut

/-- The tokens of a command are cut again from its canonical text, if this joins none of them to
another. -/
theorem scan_join_of_recognise? (h : Grammar.builtin.recognise? v ts = some r)
    (hcut : Token.Cut false ts) (hfree : Token.Free ts) (hseparate : Token.Separate ts) :
    Token.scan false (Token.join ts).toList = ts.map Token.bare := by
  obtain ⟨hworded, hfills, htakes⟩ := fills_of_recognise? h
  exact Token.scan_join hcut (hseparate.firm fun t ht =>
    hworded.text hfills htakes (Recognition.kinds h) hfree ht)

end

/-! ## Statements wherever they stand -/

namespace Statement

theorem render_map_bare (e : Entry) (parameters : List Parameter) :
    e.render (parameters.map Parameter.bare) = e.render parameters := by
  rw [Entry.render, Entry.render, ← Token.join_map_bare, ← Token.join_map_bare (e.fill parameters)]
  congr 1
  rw [Entry.fill, Entry.fill, List.map_flatMap, List.map_flatMap]
  refine List.flatMap_congr fun piece _ => ?_
  cases piece with
  | literal text => rfl
  | slot index =>
    dsimp only
    rw [List.getElem?_map]
    cases parameters[index]? with
    | none => rfl
    | some p => simp [Parameter.bare]

/-- The statement of a command depends on the places of its tokens in these places only. -/
theorem bare_ofRecognition (number : Nat) (line : String) (commented : Bool) (r : Recognition) :
    (ofRecognition number line commented r).bare =
      ofRecognition 0 "" commented (r.map Token.bare) := by
  have hparameters : (r.fit.map Token.bare).parameters r.entry.form = _ := Fit.parameters_map ..
  simp only [ofRecognition, Recognition.map, hparameters]
  rw [show (fun p : Parameter => (⟨p.kind, p.tokens.map Token.bare⟩ : Parameter)) = Parameter.bare
    from rfl,
    render_map_bare]
  rfl

/-! ## Reading from the tokens -/

def isMarked (line : String) : Bool := (Token.stripped line).head? == some '*'

theorem stripped_of_isMarked {line : String} (h : isMarked line = true) :
    Token.stripped line = '*' :: Token.code line := by
  rw [isMarked, beq_iff_eq] at h
  obtain ⟨cs, hcs⟩ := List.head?_eq_some_iff.mp h
  rw [Token.code_of_mark hcs, hcs]

theorem commentBody_of_stripped {line : String} {cs : List Char}
    (h : Token.stripped line = '*' :: cs) :
    commentBody line = String.ofList (Text.trimChars cs) := by
  rw [commentBody, show line.toList.dropWhile Token.isGap = _ from h]
  rfl

/-- A trimmed line has its characters behind the leading blanks, trimmed. -/
theorem trim_eq (line : String) :
    Text.trim line = String.ofList (Text.trimChars (Token.stripped line)) := by
  obtain ⟨g, hg, hsplit⟩ := Text.exists_dropLeft Token.isGap line.toList
  have hdrop : Text.dropLeft Text.isBlank line.toList =
      Text.dropLeft Text.isBlank (Token.stripped line) := by
    conv => lhs; rw [hsplit]
    exact Text.dropLeft_append (fun c hc => Token.isBlank_of_isGap (hg c hc)) _
  rw [Text.trim, Text.trimChars, hdrop, Text.trimChars]

def body (line : String) : String := String.ofList (Text.trimChars (Token.code line))

theorem significant_eq_nil_iff {line : String} :
    Token.significant (Token.tokenize line false) = [] ↔
    Token.scan false (Token.code line) = [] := by
  rw [← Token.significant_tokenize, List.map_eq_nil_iff]

theorem recognise?_scan (g : Grammar) (v : Version) (line : String) :
    g.recognise? v (Token.scan false (Token.code line)) =
      (g.recognise? v (Token.significant (Token.tokenize line false))).map
        (Recognition.map Token.bare) := by
  rw [← Token.significant_tokenize, Grammar.recognise?_bare]

theorem problem?_bare (v : Version) (ts : List Token) (r : Recognition) :
    problem? v (ts.map Token.bare) (r.map Token.bare) = problem? v ts r := by
  unfold problem?
  rw [unterminated?_bare]
  cases unterminated? ts <;> rfl

end Statement

def Reading.bare (r : Reading) : Reading := ⟨r.statement.bare, r.diagnostic⟩

/-- What is read from the mark of a line, from the trimmed text behind it and from the tokens. -/
def Reading.ofCode (g : Grammar) (v : Version) (number : Nat) (marked : Bool) (text : String)
    (ts : List Token) : Reading :=
  match if ts.isEmpty then none else g.recognise? v ts with
  | none =>
    if marked then ⟨{ Statement.comment 0 "" with text }, none⟩
    else if ts.isEmpty then ⟨.nop 0, none⟩
    else ⟨{ Statement.unrecognised 0 "" with text }, some (.of .unrecognised number text)⟩
  | some r =>
    let s := Statement.ofRecognition 0 "" marked r
    ⟨s, (if marked then none else Statement.problem? v ts r).map fun p => .of p number s.text⟩

section

variable {g : Grammar} {v : Version} {number : Nat} {marked : Bool} {text : String}
  {ts : List Token}

theorem Reading.ofCode_of_unfit (h : ts ≠ [] → g.recognise? v ts = none) :
    ofCode g v number marked text ts =
    if marked then ⟨{ Statement.comment 0 "" with text }, none⟩
    else if ts.isEmpty then ⟨.nop 0, none⟩
    else ⟨{ Statement.unrecognised 0 "" with text }, some (.of .unrecognised number text)⟩ := by
  unfold ofCode
  cases ts with
  | nil => rfl
  | cons t ts => simp only [h (by simp), ite_self]

/-- A command is read from its tokens. -/
theorem Reading.ofCode_of_fits {r : Recognition} (hne : ts ≠ []) (h : g.recognise? v ts = some r)
    (text' : String) :
    ofCode g v number marked text ts = ofCode g v number marked text' ts := by
  simp only [ofCode, List.isEmpty_iff, hne, h, if_false]

end

namespace Statement

/-- A line is read from its mark, its text and its tokens. Where they stand does not matter. -/
theorem bare_read (g : Grammar) (v : Version) (number : Nat) (line : String) :
    (read g v number line).bare =
      .ofCode g v number (isMarked line) (body line) (Token.scan false (Token.code line)) := by
  have hmarked : (Token.comment? (Token.tokenize line false)).isSome = isMarked line :=
    Token.isSome_comment? line
  have hcomment : isMarked line = true → commentBody line = body line :=
    fun h => commentBody_of_stripped (stripped_of_isMarked h)
  have hplain : isMarked line = false → Text.trim line = body line := by
    intro h
    rw [trim_eq, body, Token.code_of_no_mark (by simpa [isMarked] using h)]
  rw [← Token.significant_tokenize, read, Reading.ofCode, Grammar.recognise?_bare, List.isEmpty_map]
  simp only [hmarked]
  generalize Token.significant (Token.tokenize line false) = ts
  cases ts.isEmpty with
  | true =>
    cases hmark : isMarked line with
    | true =>
      rw [← hcomment hmark]
      rfl
    | false => rfl
  | false =>
    simp only [Bool.false_eq_true, if_false]
    cases g.recognise? v ts with
    | none =>
      cases hmark : isMarked line with
      | true =>
        rw [← hcomment hmark]
        rfl
      | false =>
        rw [← hplain hmark]
        rfl
    | some r =>
      simp only [Option.map_some, problem?_bare, ← bare_ofRecognition number line]
      rfl

/-! ## Reading what is displayed -/

/-- The text of the line that shows a statement. A blank line has none. -/
def shown? (s : Statement) : Option String := if s.form = FormId.nop then none else some s.display

theorem shown?_bare (s : Statement) : s.bare.shown? = s.shown? := rfl

section

variable {v : Version} {line margin text : String} {cs : List Char}

theorem code_of_marked (hmargin : Token.AllGaps margin.toList) (htext : text.toList = '*' :: cs) :
    isMarked (margin ++ text) = true ∧ Token.code (margin ++ text) = cs := by
  have hstripped : Token.stripped (margin ++ text) = '*' :: cs := by
    rw [Token.stripped_append hmargin, htext]
    rw [htext]
    rintro c ⟨⟩
    rfl
  exact ⟨by rw [isMarked, hstripped]; rfl, Token.code_of_mark hstripped⟩

theorem head?_of_unmarked (hmark : isMarked line = false) {c : Char}
    (hc : (Token.stripped line).head? = some c) :
    Token.isGap c = false ∧ c ≠ '*' := by
  refine ⟨Token.head?_stripped line c hc, fun heq => ?_⟩
  rw [isMarked, hc, heq] at hmark
  cases hmark

theorem code_of_unmarked (hmargin : Token.AllGaps margin.toList)
    (htext : ∀ c, text.toList.head? = some c → Token.isGap c = false ∧ c ≠ '*') :
    isMarked (margin ++ text) = false ∧ Token.code (margin ++ text) = text.toList := by
  have hstripped : Token.stripped (margin ++ text) = text.toList :=
    Token.stripped_append hmargin fun c hc => (htext c hc).1
  have hmark : (Token.stripped (margin ++ text)).head? ≠ some '*' := by
    rw [hstripped]
    exact fun hc => (htext '*' hc).2 rfl
  exact ⟨by simpa [isMarked] using hmark, by rw [Token.code_of_no_mark hmark, hstripped]⟩

theorem display_comment (text : String) : ∃ g, Token.AllGaps g ∧
    ({ comment 0 "" with text } : Statement).display.toList = '*' :: (g ++ text.toList) := by
  rw [display, show ({ comment 0 "" with text } : Statement).isComment = true from rfl, if_pos rfl]
  dsimp only
  split
  · next hempty =>
    rw [String.isEmpty_iff] at hempty
    exact ⟨[], by simp [Token.AllGaps], by rw [hempty]; rfl⟩
  · exact ⟨[' '], by simp [Token.AllGaps, Token.isGap], by rw [String.toList_append]; rfl⟩

/-- A command without a comment mark is displayed from its first character on. -/
theorem head?_join (hmark : isMarked line = false) :
    (Token.join (Token.significant (Token.tokenize line false))).toList.head? =
      (Token.stripped line).head? := by
  have hcode : Token.code line = Token.stripped line :=
    Token.code_of_no_mark (by simpa [isMarked] using hmark)
  rw [← Token.join_map_bare, Token.significant_tokenize, hcode]
  cases hstripped : Token.stripped line with
  | nil => simp [Token.join]
  | cons c cs => exact Token.head?_join_scan (Token.head?_stripped line c (by rw [hstripped]; rfl))

/-- A command is displayed with its tokens, behind a mark if it is commented out. -/
theorem display_ofRecognition {r : Recognition} (number : Nat) (commented : Bool)
    (h : Grammar.builtin.recognise? v (Token.significant (Token.tokenize line false)) = some r) :
    (ofRecognition number line commented r).display =
      (if commented then "* " else "") ++ Token.join
        (Token.significant (Token.tokenize line false)) := by
  have hform : (ofRecognition number line commented r).isComment = false := by
    have hmatchable := builtin_lawful.matchable _ (Recognition.of_recognise? h).1
    simp only [FormId.isUnmatchable, Bool.or_eq_false_iff] at hmatchable
    exact hmatchable.1.2
  rw [display, hform, if_neg (by simp), ← render_of_recognise? h (Token.cut_significant line)]
  cases commented with
  | false => exact String.empty_append.symm
  | true => rfl

end

end Statement

/-- The line is read as the same statement when it is displayed. -/
structure Steady (v : Version) (line : String) : Prop where
  /-- Canonical spacing joins no two tokens of a command. -/
  command : ∀ r,
    Grammar.builtin.recognise? v (Token.significant (Token.tokenize line false)) = some r →
    Token.Separate (Token.significant (Token.tokenize line false))
  /-- The blanks at the ends of any other line are blanks between tokens. -/
  other : Grammar.builtin.recognise? v (Token.significant (Token.tokenize line false)) = none →
    Text.trimChars (Token.code line) = Text.trimGaps (Token.code line)

namespace Steady

open Statement

variable {v : Version} {line : String}

theorem recognise?_eq_none_iff :
    Grammar.builtin.recognise? v (Token.significant (Token.tokenize line false)) = none ↔
    Grammar.builtin.recognise? v (Token.scan false (Token.code line)) = none := by
  rw [recognise?_scan, Option.map_eq_none_iff]

/-- A line that no form fits has no command in it without the blanks at its ends. -/
theorem recognise?_body (h : Steady v line)
    (hnone : Token.scan false (Token.code line) ≠ [] →
      Grammar.builtin.recognise? v (Token.scan false (Token.code line)) = none) :
    Token.scan false (body line).toList ≠ [] →
      Grammar.builtin.recognise? v (Token.scan false (body line).toList) = none := by
  rw [body, String.toList_ofList]
  by_cases hnil : Token.scan false (Token.code line) = []
  · rw [Token.trimChars_of_scan hnil, Token.scan_nil]
    exact fun hc => absurd rfl hc
  · intro _
    rw [h.other (recognise?_eq_none_iff.mpr (hnone hnil))]
    exact (recognise?_trimGaps v _).mp (hnone hnil)

variable {margin : String} (hmargin : Token.AllGaps margin.toList) (number : Nat)

include hmargin

/-- A command is read again from the line that shows it. -/
theorem read_command (h : Steady v line) {r : Recognition}
    (hne : Token.scan false (Token.code line) ≠ [])
    (hr : Grammar.builtin.recognise? v (Token.significant (Token.tokenize line false)) = some r) :
    (read .builtin v number
      (margin ++ (ofRecognition number line (isMarked line) r).display)).bare =
      (read .builtin v number line).bare := by
  have hscan :=
    scan_join_of_recognise? hr (Token.cut_significant line) (Token.free_significant line)
      (h.command r hr)
  rw [Token.significant_tokenize] at hscan
  -- the line has its mark, and the code behind it has the tokens of the command
  have hsame : ∀ line', isMarked line' = isMarked line →
      Token.scan false (Token.code line') = Token.scan false (Token.code line) →
      (read .builtin v number line').bare = (read .builtin v number line).bare := by
    intro line' hmark htokens
    rw [bare_read, bare_read, hmark, htokens]
    exact Reading.ofCode_of_fits hne (by rw [recognise?_scan, hr, Option.map_some]) _
  rw [display_ofRecognition number _ hr]
  cases hmark : isMarked line with
  | true =>
    rw [if_pos rfl]
    obtain ⟨hmark', hcode⟩ := code_of_marked hmargin (String.toList_append (s := "* "))
    refine hsame _ (hmark'.trans hmark.symm) ?_
    rw [hcode]
    exact (Token.scan_gap rfl false _).trans hscan
  | false =>
    rw [if_neg (by simp), String.empty_append]
    obtain ⟨hmark', hcode⟩ :=
      code_of_unmarked hmargin fun c hc =>
        head?_of_unmarked hmark ((head?_join hmark).symm.trans hc)
    exact hsame _ (hmark'.trans hmark.symm) (by rw [hcode, hscan])

/-- A line that is no command is read again from the line that shows it. -/
theorem read_other (h : Steady v line) {text : String}
    (hnone : Token.scan false (Token.code line) ≠ [] →
      Grammar.builtin.recognise? v (Token.scan false (Token.code line)) = none)
    (htext : (read .builtin v number line).bare.statement.shown? = some text) :
    (read .builtin v number (margin ++ text)).bare = (read .builtin v number line).bare := by
  have hagain := h.recognise?_body hnone
  have hbody : ∀ line' gap, Token.AllGaps gap → Token.code line' = gap ++ (body line).toList →
      body line' = body line := by
    intro line' gap hgap hcode
    rw [body, hcode, body, String.toList_ofList,
      Text.trimChars_append_trimChars fun c hc => Token.isBlank_of_isGap (hgap c hc)]
  rw [bare_read .builtin v number line, Reading.ofCode_of_unfit hnone] at htext ⊢
  cases hmark : isMarked line with
  | true =>
    obtain ⟨gap, hgap, hdisplay⟩ := display_comment (body line)
    rw [hmark, if_pos rfl] at htext
    obtain rfl := Option.some.inj htext
    obtain ⟨hmark', hcode⟩ := code_of_marked hmargin hdisplay
    rw [bare_read, hmark', hbody _ gap hgap hcode, hcode, Token.scan_append_left hgap,
      Reading.ofCode_of_unfit hagain, if_pos rfl, if_pos rfl]
  | false =>
    rw [hmark] at htext
    by_cases hnil : Token.scan false (Token.code line) = []
    · rw [hnil] at htext
      cases htext
    · rw [if_neg (by simp), if_neg (by simpa using hnil)] at htext ⊢
      obtain rfl : body line = text := Option.some.inj htext
      have htrim := h.other (recognise?_eq_none_iff.mpr (hnone hnil))
      have hcode : Token.code line = Token.stripped line :=
        Token.code_of_no_mark (by simpa [isMarked] using hmark)
      have hchars : (body line).toList = Text.dropRight Token.isGap (Token.stripped line) := by
        rw [body, String.toList_ofList, htrim, hcode, Text.trimGaps,
          Text.dropLeft_eq (Token.head?_stripped line)]
      -- the first character is that of the line, which is no mark
      have hhead : ∀ c, (body line).toList.head? = some c → Token.isGap c = false ∧ c ≠ '*' := by
        intro c hc
        rw [hchars] at hc
        exact head?_of_unmarked hmark (Text.head?_of_dropRight hc)
      obtain ⟨hmark', hcode'⟩ := code_of_unmarked hmargin hhead
      have hne : Token.scan false (body line).toList ≠ [] := by
        obtain ⟨g, -, hscan⟩ := Token.scan_eq_scan_trimGaps false (Token.code line)
        rw [body, String.toList_ofList, htrim]
        exact fun hempty => hnil (by rw [hscan, hempty, List.map_nil])
      have hsame :=
        hbody (margin ++ body line) [] (by simp [Token.AllGaps]) (by rw [hcode', List.nil_append])
      rw [bare_read, hmark', hsame, hcode', Reading.ofCode_of_unfit hagain, if_neg (by simp),
        if_neg (by simpa using hne)]

/-- A statement is read again from the line that shows it, however this line is indented. -/
theorem read_shown (h : Steady v line) {text : String}
    (htext : (read .builtin v number line).bare.statement.shown? = some text) :
    (read .builtin v number (margin ++ text)).bare = (read .builtin v number line).bare := by
  by_cases hnone : Token.scan false (Token.code line) ≠ [] →
      Grammar.builtin.recognise? v (Token.scan false (Token.code line)) = none
  · exact h.read_other hmargin number hnone htext
  · rw [Classical.not_imp, ← recognise?_eq_none_iff, ← ne_eq, Option.ne_none_iff_exists'] at hnone
    obtain ⟨hne, r, hr⟩ := hnone
    have hread : (read .builtin v number line).statement =
        ofRecognition number line (isMarked line) r := by
      rw [Statement.read, Token.isSome_comment?]
      simp only [hr]
      rw [if_neg (by simpa [significant_eq_nil_iff] using hne), isMarked]
    rw [← h.read_command hmargin number hne hr, ← hread]
    have hdisplay : (read .builtin v number line).statement.display = text := by
      rw [Reading.bare, shown?_bare, shown?] at htext
      split at htext
      · cases htext
      · exact Option.some.inj htext
    rw [hdisplay]

end Steady

end GameScript
