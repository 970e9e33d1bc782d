import GameScript.Proofs.Expression.Order
import GameScript.Proofs.Token.Code

/-!
# Expressions in canonical spacing

An expression that is written with canonical spacing is cut into the same tokens again, so it has
the same evaluation order (`expression_relexes`). Canonical spacing leaves out blanks behind opening
brackets and unary operators only. What may stand there in an expression starts an operand
(`Starts`), and nothing that starts an operand joins with what stands before it (`head_of_starts`).
An index bracket has no place in an expression at all.
-/

namespace GameScript

namespace Token

def content (t : Token) : TokenKind × String × String := (t.kind, t.text, t.value)

theorem map_content_eq {ts us : List Token} (h : ts.map bare = us.map bare) :
    ts.map content = us.map content := by
  have hbare : ∀ ts : List Token, (ts.map bare).map content = ts.map content := fun ts => by
    rw [List.map_map]
    rfl
  rw [← hbare ts, h, hbare]

end Token

namespace Expression

open Token

def Starts (t : Token) : Prop :=
  t.kind.isOperand = true ∨ t.kind = .unaryOp ∨ (t.kind = .binaryOp ∧ t.text = "(")

def isUnfit (c : Char) : Bool := isGap c || c == '*' || c == '>' || c == '='

variable {b : Bool} {t : Token} {s s' : Yard} {ts : List Token}

theorem head_of_starts (hspelled : Spelled b t.kind t.text.toList) (hstarts : Starts t) :
    ∃ c cs, t.text.toList = c :: cs ∧ isUnfit c = false := by
  generalize hcs : t.text.toList = cs at hspelled
  generalize hkind : t.kind = kind at hspelled
  cases hspelled with
  | number hne hdigits =>
    obtain ⟨d, ds, rfl⟩ := List.exists_cons_of_ne_nil hne
    refine ⟨d, ds, rfl, ?_⟩
    have hd := hdigits d (by simp)
    have hne : d ≠ '*' ∧ d ≠ '>' ∧ d ≠ '=' :=
      ⟨ne_of_class hd rfl, ne_of_class hd rfl, ne_of_class hd rfl⟩
    simp [isUnfit, not_gap_of_isDigit hd, hne]
  | @symbol _ w hw hop =>
    have hunary : ∀ w ∈ symbolOperators, ∀ b, operatorKind b w = .unaryOp ∨ w = "(" →
        (w.toList.head?.map isUnfit) = some false := by decide
    have hw' : operatorKind b w = .unaryOp ∨ w = "(" := by
      rcases hstarts with h | h | h
      · rcases operatorKind_cases b w with hk | hk <;> rw [hkind, hop, hk] at h <;> cases h
      · exact .inl (by rw [← hop, ← hkind, h])
      · exact .inr (String.toList_inj.mp (by rw [← hcs, h.2]))
    have hhead := hunary w hw b hw'
    cases hlist : w.toList with
    | nil => simp [hlist] at hhead
    | cons c cs => exact ⟨c, cs, rfl, by simpa [hlist] using hhead⟩
  | keyword | label | text | blank =>
    rcases hstarts with h | h | h
    · simp [hkind, TokenKind.isOperand] at h
    · simp [hkind] at h
    · simp [hkind] at h
  | @wordOperator w hw =>
    rcases hstarts with h | h | h
    · simp [hkind, TokenKind.isOperand] at h
    · simp [hkind] at h
    · obtain rfl : w = "(" := String.toList_inj.mp (by rw [← hcs, h.2])
      exact absurd hw (by decide)
  | _ => exact ⟨_, _, rfl, rfl⟩

/-- What is read where an operand is due starts one. -/
theorem Reads.starts (h : Reads s t s') (hwants : s.wantsOperand = true) : Starts t := by
  cases h with
  | operand hkind => exact .inl hkind
  | wait _ _ ht => exact .inr ht
  | close _ _ hno => rw [hwants] at hno; cases hno
  | binary _ _ _ hno => rw [hwants] at hno; cases hno

theorem Reads.wants_of_unary (h : Reads s t s') (hkind : t.kind = .unaryOp) :
    s'.wantsOperand = true := by
  cases h with
  | operand hoperand => rw [hkind] at hoperand; cases hoperand
  | wait _ hwants => exact hwants
  | close hbinary => rw [hkind] at hbinary; cases hbinary
  | binary => rfl

theorem Reads.kind_ne_text (h : Reads s t s') : t.kind ≠ .text := by
  intro hkind
  cases h with
  | operand hoperand => rw [hkind] at hoperand; cases hoperand
  | wait _ _ ht => simp [hkind] at ht
  | close hbinary => rw [hkind] at hbinary; cases hbinary
  | binary hbinary => rw [hkind] at hbinary; cases hbinary

theorem Reads.text_ne_bracket (h : Reads s t s') (hkind : t.kind = .binaryOp) : t.text ≠ "[" := by
  intro htext
  cases h with
  | operand hoperand => rw [hkind] at hoperand; cases hoperand
  | wait _ _ ht => simp [hkind, htext] at ht
  | close _ hclose => exact absurd (htext.symm.trans hclose) (by decide)
  | binary _ _ hlevel => rw [htext] at hlevel; cases hlevel

/-- An expression starts with none of the unfit characters. -/
theorem head_join (hcut : Cut b ts) (hrun : ts.foldlM read s = .ok s')
    (hwants : s.wantsOperand = true) : ∀ c, (join ts).toList.head? = some c →
    isUnfit c = false := by
  intro c hc
  cases ts with
  | nil => simp [join] at hc
  | cons t ts =>
    obtain ⟨s₁, hreads, -⟩ := foldlM_read_cons.mp hrun
    obtain ⟨d, ds, hds, hunfit⟩ := head_of_starts hcut.1.spelled (hreads.starts hwants)
    rw [join_cons, String.toList_append, hds] at hc
    cases hc
    exact hunfit

/-- Canonical spacing keeps the tokens of an expression apart. -/
theorem firm_of_foldlM (hcut : Cut b ts) (hrun : ts.foldlM read s = .ok s') : Firm ts := by
  induction ts generalizing b s with
  | nil => trivial
  | cons t ts ih =>
    obtain ⟨s₁, hreads, hrest⟩ := foldlM_read_cons.mp hrun
    have hunary : t.kind = .unaryOp → ∀ c, (join ts).toList.head? = some c → isUnfit c = false :=
      fun hkind => head_join hcut.2 hrest (hreads.wants_of_unary hkind)
    have his : ∀ {kind : TokenKind} {text : String}, t.is kind text = true → t.kind = kind ∧
        t.text = text := by
      intro kind text h
      simpa [Token.is] using h
    refine ⟨⟨fun htext => absurd htext hreads.kind_ne_text, fun hminus hhead => ?_,
      fun hnot hhead => ?_,
      fun hbracket => absurd (his hbracket).2 (hreads.text_ne_bracket (his hbracket).1)⟩,
      ih hcut.2 hrest⟩
    · cases hunary (his hminus).1 _ hhead
    · cases hunary (his hnot).1 _ hhead

/-- The tokens of an expression are cut again from their canonical text. -/
theorem significant_tokenize_join {order : List Token} (hcut : Cut false ts)
    (horder : evalOrder ts = .ok order) : (significant (tokenize (join ts) false)).map bare =
      ts.map bare := by
  obtain ⟨s, output, hrun, hwants, -, -⟩ := evalOrder_eq_ok.mp horder
  have hcode : code (join ts) = (join ts).toList := by
    have hhead := head_join hcut hrun rfl
    unfold code
    cases hlist : (join ts).toList with
    | nil => rfl
    | cons c cs =>
      have hunfit := hhead c (by rw [hlist]; rfl)
      simp only [isUnfit, Bool.or_eq_false_iff, beq_eq_false_iff_ne] at hunfit
      rw [List.dropWhile_cons_of_neg (by simp [hunfit.1.1.1])]
      unfold afterMark
      split
      · next heq => exact absurd (List.cons.inj heq).1 hunfit.1.1.2
      · rfl
  rw [significant_tokenize, hcode]
  exact scan_join hcut (firm_of_foldlM hcut hrun)

/-- Every expression in a line, commented out or not, is cut from its canonical text into tokens
with the same kinds, texts and values, so it has the same evaluation order. -/
theorem expression_relexes (line : String) {ts order : List Token}
    (hts : significant (tokenize line false) = ts) (horder : evalOrder ts = .ok order) :
    ∃ ts' order', significant (tokenize (join ts) false) = ts' ∧ ts'.map content = ts.map content ∧
      evalOrder ts' = .ok order' ∧ order'.map content = order.map content := by
  have hcut : Cut false ts := by
    rw [← hts]
    exact cut_significant line
  generalize hts' : significant (tokenize (join ts) false) = ts'
  have hbare : ts'.map bare = ts.map bare := by
    rw [← hts']
    exact significant_tokenize_join hcut horder
  have hmap : (evalOrder ts').map (List.map bare) = .ok (order.map bare) := by
    rw [← evalOrder_bare, hbare, evalOrder_bare, horder]
    rfl
  obtain ⟨order', horder', hsame⟩ := map_eq_ok_iff.mp hmap
  exact ⟨ts', order', rfl, map_content_eq hbare, horder', map_content_eq hsame⟩

def signedLine : String := "* ! ( - $a.b+\x7bArgon M1\x7d  )mod ~ 5"

/-- The blanks that canonical spacing leaves out do not join tokens. -/
theorem signedLine_relexes : ∃ ts order ts' order', significant (tokenize signedLine false) = ts ∧
    evalOrder ts = .ok order ∧ significant (tokenize (join ts) false) = ts' ∧
    ts'.map content = ts.map content ∧
    evalOrder ts' = .ok order' ∧ order'.map content = order.map content := by
  have hsome : (evalOrder (significant (tokenize signedLine false))).toOption.isSome = true := by
    decide +kernel
  cases horder : evalOrder (significant (tokenize signedLine false)) with
  | error e =>
    rw [horder] at hsome
    cases hsome
  | ok order =>
    obtain ⟨ts', order', hsame⟩ := expression_relexes signedLine rfl horder
    exact ⟨_, order, ts', order', rfl, horder, hsame⟩

end Expression

end GameScript
