import Mathlib.Data.List.Forall2
import GameScript.Proofs.Statement.Filling
import GameScript.Proofs.Token.Code
import GameScript.Proofs.Token.Free

/-!
# The words of templates

The words of the built-in templates are told from free text wherever they stand (`isTemplateWord`).
So a line that is read as a command has no free text but plain words and arrows
(`Entry.Worded.text`), and its canonical text is its own tokens, written with canonical spacing
(`Entry.Worded.render_eq`).
-/

namespace GameScript

/-! ## Templates -/

/-- A word that is neither a keyword nor an operator. -/
def Token.isPlainWord (w : String) : Bool :=
  !w.toList.isEmpty && w.toList.all Char.isAlpha && w != "null" && !keywords.contains w &&
  !wordOperators.contains w

theorem Token.isPlainWord_iff {w : String} : isPlainWord w = true ↔ IsPlainWord w := by
  simp only [isPlainWord, Bool.and_eq_true, Bool.not_eq_true', List.isEmpty_eq_false_iff,
    List.all_eq_true, bne_iff_ne, ne_eq, List.contains_eq_mem, decide_eq_false_iff_not]
  exact ⟨fun h => ⟨h.1.1.1.1, h.1.1.1.2, h.1.1.2, h.1.2, h.2⟩,
    fun h => ⟨⟨⟨⟨h.nonempty, h.letters⟩, h.null⟩, h.keyword⟩, h.operator⟩⟩

def isTemplateWord (w : String) : Bool :=
  Token.isPlainWord w || w == "->" || Token.keywords.contains w || Token.isLabelWord w ||
  w == "1" ||
    ["=", "[", "]", ",", "-"].contains w

def ParamKind.isSingle : ParamKind → Bool
  | .var | .value | .number | .string | .gameObject | .scriptObject => true
  | _ => false

theorem ParamKind.Takes.isValue {kind : ParamKind} {ts : List Token} (h : kind.Takes ts)
    (hkind : kind.isSingle = true) :
    Token.IsValue ts := by
  cases kind <;> first | exact h | cases hkind

/-- A minus sign stands behind a single value, so that it is no sign of a number. -/
def Form.minusBehindValue (f : Form) : Bool → List Piece → Bool
  | _, [] => true
  | behind, .literal w :: ps => (w != "-" || behind) && f.minusBehindValue false ps
  | _, .slot i :: ps => f.minusBehindValue ((f.kindAt? i).any ParamKind.isSingle) ps

/-- What the canonical text of a command relies on in its form. -/
structure Entry.Worded (e : Entry) : Prop where
  words : ∀ w ∈ e.words, isTemplateWord w = true
  expression : e.words ≠ [] → ∀ p ∈ e.form.params, p.kind ≠ .expression
  minus : e.form.minusBehindValue false e.pieces = true
  placeholders : (placeholders e.pieces).Nodup

def Entry.isWorded (e : Entry) : Bool :=
  e.words.all isTemplateWord && (e.words.isEmpty || e.form.params.all fun p =>
    p.kind != .expression) &&
    e.form.minusBehindValue false e.pieces && decide (GameScript.placeholders e.pieces).Nodup

theorem Entry.worded_of_isWorded {e : Entry} (h : e.isWorded = true) : e.Worded := by
  simp only [isWorded, Bool.and_eq_true, Bool.or_eq_true, List.all_eq_true, List.isEmpty_iff,
    bne_iff_ne, ne_eq, decide_eq_true_eq] at h
  obtain ⟨⟨⟨hwords, hexpression⟩, hminus⟩, hplaceholders⟩ := h
  exact ⟨hwords, fun hne => hexpression.resolve_left hne, hminus, hplaceholders⟩

set_option maxRecDepth 20000 in
theorem isWorded_builtin : ∀ e ∈ Grammar.builtin.entries, e.isWorded = true := by
  rw [Grammar.builtin_eq]
  decide +kernel

theorem builtin_worded : ∀ e ∈ Grammar.builtin.candidates, e.Worded :=
  fun e he =>
    Entry.worded_of_isWorded (isWorded_builtin e (List.mem_filter.mp (Entry.mem_of_mem_sort he)).1)

/-! ## Free text of commands -/

theorem Token.IsValue.kinds {ts : List Token} (h : IsValue ts) :
    ∀ t ∈ ts, t.kind.isOperand = true ∨ t.kind = .unaryOp := by
  rcases h with ⟨t, rfl, ht⟩ | ⟨m, n, rfl, hm, hn⟩
  · simpa using .inl ht
  · have hm : m.kind = .unaryOp := by
      simp only [Token.is, Bool.and_eq_true, beq_iff_eq] at hm
      exact hm.1
    simp [hm, hn, TokenKind.isOperand]

/-- What a parameter takes is no free text, and no parenthesis unless it is an expression. -/
theorem ParamKind.Takes.kinds {kind : ParamKind} {ts : List Token} (h : kind.Takes ts) :
    ∀ t ∈ ts, t.kind ≠ .text ∧ (kind ≠ .expression → t.is .binaryOp "(" = false) := by
  have hvalue : ∀ t : Token, t.kind.isOperand = true ∨ t.kind = .unaryOp →
      t.kind ≠ .text ∧ t.is .binaryOp "(" = false := by
    intro t ht
    unfold Token.is
    cases hkind : t.kind <;> simp [hkind, TokenKind.isOperand] at ht ⊢
  have hvalues : ∀ {ts : List Token}, Token.IsValueList ts → ∀ t ∈ ts, t.kind ≠ .text ∧
      t.is .binaryOp "(" = false := by
    intro ts h
    induction h with
    | last h => exact fun t ht => hvalue t (h.kinds t ht)
    | more h hcomma _ ih =>
      intro t ht
      rcases List.mem_append.mp ht with ht | ht
      · exact hvalue t (h.kinds t ht)
      · rcases List.mem_cons.mp ht with rfl | ht
        · simp only [Token.isComma, Token.is, Bool.and_eq_true, beq_iff_eq] at hcomma
          simp [Token.is, hcomma]
        · exact ih t ht
  intro t ht
  cases kind with
  | retVar | retVarIf | retVarIfStart =>
    rcases h with hkeywords | ⟨v, e, rfl, hv, he⟩
    · simp [Token.is, hkeywords t ht]
    · simp only [Token.is, Bool.and_eq_true, beq_iff_eq] at he
      rcases List.mem_cons.mp ht with rfl | ht
      · simp [Token.is, hv]
      · obtain rfl := List.mem_singleton.mp ht
        simp [Token.is, he]
  | labelName =>
    obtain ⟨u, rfl, hu⟩ := h
    obtain rfl := List.mem_singleton.mp ht
    simp [Token.is, hu]
  | expression =>
    refine ⟨fun htext => ?_, fun hc => absurd rfl hc⟩
    have hkind := h t ht
    rw [htext] at hkind
    cases hkind
  | valueList => exact ⟨(hvalues h t ht).1, fun _ => (hvalues h t ht).2⟩
  | var | value | number | string | gameObject | scriptObject =>
    have hkinds := hvalue t (Token.IsValue.kinds h t ht)
    exact ⟨hkinds.1, fun _ => hkinds.2⟩

section

variable {parameters : List Parameter} {ps : List Piece} {ts : List Token}

/-- A token of a command is a word of the template or stands in a parameter. -/
theorem Fills.mem (h : Fills parameters ps ts) {t : Token} (ht : t ∈ ts) :
    .literal t.text ∈ ps ∨ ∃ p ∈ parameters, t ∈ p.tokens := by
  induction h with
  | nil => cases ht
  | literal htext _ ih =>
    rcases List.mem_cons.mp ht with rfl | ht
    · exact .inl (by simp [htext])
    · exact (ih ht).imp_left (List.mem_cons_of_mem _)
  | @slot _ _ p _ hp _ ih =>
    rcases List.mem_append.mp ht with ht | ht
    · exact .inr ⟨p, List.mem_of_getElem? hp, ht⟩
    · exact (ih ht).imp_left (List.mem_cons_of_mem _)

theorem Token.Free.before {ts : List Token} (h : Free ts) {t : Token} (ht : t ∈ ts)
    (hkind : t.kind = .text) :
    ∃ us ⊆ ts, t.FreeBefore us := by
  induction ts with
  | nil => cases ht
  | cons u us ih =>
    rcases List.mem_cons.mp ht with rfl | ht
    · exact ⟨us, fun x hx => by simp [hx], h.1 hkind⟩
    · obtain ⟨vs, hvs, hbefore⟩ := ih h.2 ht
      exact ⟨vs, fun x hx => by simp [hvs hx], hbefore⟩

namespace Entry.Worded

variable {e : Entry}

theorem word_of_mem {w : String} (hw : .literal w ∈ e.pieces) : w ∈ e.words :=
  List.mem_filterMap.mpr ⟨_, hw, rfl⟩

/-- A command with words has no parentheses. -/
theorem not_paren (h : e.Worded) (hfills : Fills parameters e.pieces ts)
    (htakes : ∀ p ∈ parameters, p.kind.Takes p.tokens)
    (hkinds : parameters.map Parameter.kind = e.form.params.map ParamDecl.kind) (hne : e.words ≠ [])
    {t : Token} (ht : t ∈ ts) : t.is .binaryOp "(" = false := by
  rcases hfills.mem ht with hword | ⟨p, hp, htp⟩
  · cases hparen : t.is .binaryOp "(" with
    | false => rfl
    | true =>
      simp only [Token.is, Bool.and_eq_true, beq_iff_eq] at hparen
      rw [hparen.2] at hword
      exact absurd (h.words _ (word_of_mem hword)) (by decide)
  · refine ((htakes p hp).kinds t htp).2 ?_
    have hmem : p.kind ∈ e.form.params.map ParamDecl.kind := hkinds ▸ List.mem_map_of_mem hp
    obtain ⟨d, hd, hkind⟩ := List.mem_map.mp hmem
    rw [← hkind]
    exact h.expression hne d hd

/-- The free text of a command is plain words and arrows. -/
theorem text (h : e.Worded) (hfills : Fills parameters e.pieces ts)
    (htakes : ∀ p ∈ parameters, p.kind.Takes p.tokens)
    (hkinds : parameters.map Parameter.kind = e.form.params.map ParamDecl.kind)
    (hfree : Token.Free ts) {t : Token} (ht : t ∈ ts) (hkind : t.kind = .text) :
    Token.IsPlainWord t.text ∨ t.text = "->" := by
  have hword : t.text ∈ e.words := by
    rcases hfills.mem ht with hword | ⟨p, hp, htp⟩
    · exact word_of_mem hword
    · exact absurd hkind ((htakes p hp).kinds t htp).1
  obtain ⟨us, hus, hbefore⟩ := hfree.before ht hkind
  have hclass := h.words _ hword
  simp only [isTemplateWord, Bool.or_eq_true, Token.isPlainWord_iff, beq_iff_eq,
    List.contains_iff_mem] at hclass
  rcases hclass with ((((hplain | harrow) | hkeyword) | hlabel) | hdigit) | hsymbol
  · exact .inl hplain
  · exact .inr harrow
  · obtain ⟨u, vs, rfl, hparen⟩ := hbefore.keyword hkeyword
    rw [h.not_paren hfills htakes hkinds (List.ne_nil_of_mem hword) (hus (by simp))] at hparen
    cases hparen
  · rw [hbefore.label] at hlabel
    cases hlabel
  · exact absurd hdigit hbefore.digit
  · have hall : ["=", "[", "]", ",", "-"] ⊆ Token.symbolOperators := by decide
    exact absurd (hall hsymbol) hbefore.symbol

end Entry.Worded

end

/-! ## Canonical text of commands -/

namespace Token

/-- The tokens have the same text, and the same spacing behind them. -/
structure WrittenAlike (t u : Token) : Prop where
  text : t.text = u.text
  hugsRight : t.hugsRight = u.hugsRight

instance : Std.Refl WrittenAlike := ⟨fun _ => ⟨rfl, rfl⟩⟩

theorem join_congr {ts us : List Token} (h : List.Forall₂ WrittenAlike ts us) :
    join ts = join us := by
  induction h with
  | nil => rfl
  | cons ht hts ih =>
    rw [join_cons, join_cons, ht.text]
    congr 1
    cases hts with
    | nil => rfl
    | cons hu hus =>
      rw [tail, tail, ih, spacing, spacing, hugsLeft, hugsLeft, ht.hugsRight, hu.text]

/-- A word of a template is written like the token that it stands for, if that is no unary
operator. -/
theorem writtenAlike_detached {t : Token} {w : String} (htext : t.text = w)
    (hkind : t.kind ≠ .unaryOp) :
    WrittenAlike (detached .text w) t := by
  have hunary : (t.kind == .unaryOp) = false := by simpa using hkind
  refine ⟨htext.symm, ?_⟩
  rw [hugsRight, hugsRight, hunary, htext]
  rfl

/-- A unary operator is one of three signs, and no minus sign behind an operand. -/
theorem sign_of_unary {b : Bool} {t : Token} (h : Spelled b t.kind t.text.toList)
    (hkind : t.kind = .unaryOp) :
    t.text = "!" ∨ t.text = "~" ∨ (t.text = "-" ∧ b = false) := by
  generalize hcs : t.text.toList = cs at h
  rw [hkind] at h
  cases h with
  | @symbol _ w _ hop =>
    obtain rfl := String.toList_inj.mp hcs
    unfold operatorKind at hop
    split at hop
    · next hsign =>
      simp only [Bool.or_eq_true, beq_iff_eq, Bool.and_eq_true, Bool.not_eq_true'] at hsign
      rcases hsign with (h | h) | h
      · exact .inl h
      · exact .inr (.inl h)
      · exact .inr (.inr h)
    · cases hop

def endsOperandAfter (b : Bool) (ts : List Token) : Bool := ts.foldl (fun _ t => t.endsOperand) b

theorem Cut.append {b : Bool} {ts us : List Token} (h : Cut b (ts ++ us)) :
    Cut (endsOperandAfter b ts) us := by
  induction ts generalizing b with
  | nil => exact h
  | cons t ts ih => exact ih h.2

/-- An operand stands before what follows a value. -/
theorem IsValue.endsOperandAfter {ts : List Token} (h : IsValue ts) (b : Bool) :
    endsOperandAfter b ts = true := by
  have hoperand : ∀ t : Token, t.kind.isOperand = true → t.endsOperand = true := by
    intro t ht
    unfold endsOperand
    cases hkind : t.kind <;> rw [hkind] at ht <;> first | rfl | cases ht
  rcases h with ⟨t, rfl, ht⟩ | ⟨m, n, rfl, -, hn⟩
  · exact hoperand t ht
  · exact hoperand n (by rw [hn]; rfl)

end Token

section

variable {parameters : List Parameter} {ps : List Piece} {ts : List Token}

/-- The canonical tokens of a command are written like the tokens of its line. -/
theorem Fills.writtenAlike {f : Form} (h : Fills parameters ps ts)
    (htakes : ∀ i p, parameters[i]? = some p → f.kindAt? i = some p.kind ∧ p.kind.Takes p.tokens)
    (hwords : ∀ w, .literal w ∈ ps → isTemplateWord w = true) {b behind : Bool}
    (hcut : Token.Cut b ts) (hminus : f.minusBehindValue behind ps = true)
    (hbehind : behind = true → b = true) :
    List.Forall₂ Token.WrittenAlike (Entry.fill ⟨f, ps⟩ parameters) ts := by
  induction h generalizing b behind with
  | nil => exact .nil
  | @literal w ps t ts htext hts ih =>
    simp only [Form.minusBehindValue, Bool.and_eq_true, Bool.or_eq_true, bne_iff_ne] at hminus
    have hrest := ih (fun w hw => hwords w (by simp [hw])) hcut.2 hminus.2 (by simp)
    refine .cons (Token.writtenAlike_detached htext fun hkind => ?_) hrest
    have hword := hwords w (by simp)
    rcases Token.sign_of_unary hcut.1.spelled hkind with hsign | hsign | ⟨hsign, hb⟩
    · rw [← htext, hsign] at hword
      exact absurd hword (by decide)
    · rw [← htext, hsign] at hword
      exact absurd hword (by decide)
    · rcases hminus.1 with hne | hvalue
      · exact hne (htext.symm.trans hsign)
      · rw [hbehind hvalue] at hb
        cases hb
  | @slot index ps p ts hp hts ih =>
    obtain ⟨hkind, htake⟩ := htakes index p hp
    have hfill : Entry.fill ⟨f, .slot index :: ps⟩ parameters =
        p.tokens ++ Entry.fill ⟨f, ps⟩ parameters := by
      simp [Entry.fill, hp]
    rw [hfill]
    refine List.rel_append (List.forall₂_refl _)
      (ih (fun w hw => hwords w (by simp [hw])) hcut.append hminus ?_)
    intro hsingle
    rw [hkind] at hsingle
    exact (htake.isValue hsingle).endsOperandAfter b

/-- The canonical text of a command is its tokens, written with canonical spacing. -/
theorem Entry.Worded.render_eq {e : Entry} (h : e.Worded) (hfills : Fills parameters e.pieces ts)
    (htakes : ∀ p ∈ parameters, p.kind.Takes p.tokens)
    (hkinds : parameters.map Parameter.kind = e.form.params.map ParamDecl.kind)
    (hcut : Token.Cut false ts) :
    e.render parameters = Token.join ts := by
  refine Token.join_congr (hfills.writtenAlike (fun i p hp =>
    ⟨?_, htakes p (List.mem_of_getElem? hp)⟩)
    (fun w hw => h.words w (word_of_mem hw)) hcut h.minus (by simp))
  have hkind := congrArg (fun kinds : List ParamKind => kinds[i]?) hkinds
  simp only [List.getElem?_map, hp, Option.map_some] at hkind
  exact hkind.symm

end

end GameScript
