import GameScript.Proofs.Expression.Order
import GameScript.Proofs.Token.Shape

/-!
# The grammar of expressions

`Parses` is the grammar of expressions: operands, groups in parentheses, unary operators and binary
operators that associate to the left, in levels of how tight they bind.

* **Soundness** (`exists_parses`): what `evalOrder` accepts is an expression, and the order is the
  post-order of its term. While tokens are read, the waiting operators are the beginning of an
  expression (`Pending`).
* **Completeness** (`Parses.evalOrder_eq`): every expression is accepted. Behind an expression the
  waiting operators are those from before it, up to operators that whatever comes next releases
  first (`Settled`).
* **Uniqueness** (`Parses.postOrder_injective`): a post-order belongs to one term, so by
  completeness an expression has one term.
-/

namespace GameScript.Expression

/-! ## Terms -/

/-- What an expression says, without its parentheses. -/
inductive Term where
  | operand (t : Token)
  | unary (operator : Token) (argument : Term)
  | binary (operator : Token) (left right : Term)

/-- The tokens of a term, every operator behind its arguments. -/
def Term.postOrder : Term → List Token
  | .operand t => [t]
  | .unary operator argument => argument.postOrder ++ [operator]
  | .binary operator left right => left.postOrder ++ right.postOrder ++ [operator]

/-- The binary operators, those that bind loosest first. Operators in one row bind equally tight. -/
def binaryOperators : List (List String) :=
  [["OR"], ["AND"], ["|", "^"], ["&"], ["==", "!="], ["<", ">", "<=", ">="], ["+", "-"],
    ["*", "/", "mod"]]

/-- The grammar of expressions. An expression of level `n` has only operators from row `n` on
outside of its groups; behind the last row there are the unary operators. -/
inductive Parses : Nat → List Token → Term → Prop
  | operand {n : Nat} {t : Token} (ht : t.kind.isOperand = true) : Parses n [t] (.operand t)
  | group {n : Nat} {opening closing : Token} {ts : List Token} {e : Term}
      (hopening : opening.kind = .binaryOp ∧ opening.text = "(")
      (hclosing : closing.kind = .binaryOp ∧ closing.text = ")") (he : Parses 0 ts e) :
      Parses n (opening :: (ts ++ [closing])) e
  | unary {n : Nat} {operator : Token} {ts : List Token} {e : Term}
      (hoperator : operator.kind = .unaryOp)
      (hn : n ≤ binaryOperators.length) (he : Parses binaryOperators.length ts e) :
      Parses n (operator :: ts) (.unary operator e)
  | binary {n level : Nat} {operator : Token} {row : List String} {ls rs : List Token} {l r : Term}
      (hoperator : operator.kind = .binaryOp) (hrow : binaryOperators[level]? = some row)
      (htext : operator.text ∈ row) (hn : n ≤ level) (hl : Parses level ls l)
      (hr : Parses (level + 1) rs r) :
      Parses n (ls ++ operator :: rs) (.binary operator l r)

/-- An operator is in a row exactly if it has the level of the row. -/
theorem binaryLevel?_eq_some_iff {operator : String} {level : Nat} :
    binaryLevel? operator = some level ↔ ∃ row, binaryOperators[level]? = some row ∧
    operator ∈ row := by
  constructor
  · intro h
    simp only [binaryLevel?, Bool.or_eq_true, beq_iff_eq, or_assoc] at h
    repeat' split at h
    all_goals cases h
    all_goals exact ⟨_, rfl, by simp only [List.mem_cons, List.not_mem_nil, or_false]; assumption⟩
  · rintro ⟨row, hrow, hmem⟩
    have hlevels : ∀ p ∈ binaryOperators.zipIdx, ∀ w ∈ p.1, binaryLevel? w = some p.2 := by decide
    exact hlevels (row, level) (List.mk_mem_zipIdx_iff_getElem?.mpr hrow) operator hmem

/-- A looser level admits every expression of a tighter one. -/
theorem Parses.mono {m n : Nat} {ts : List Token} {e : Term} (h : Parses n ts e) (hm : m ≤ n) :
    Parses m ts e := by
  cases h with
  | operand ht => exact .operand ht
  | group hopening hclosing he => exact .group hopening hclosing he
  | unary hoperator hn he => exact .unary hoperator (Nat.le_trans hm hn) he
  | binary hoperator hrow htext hn hl hr =>
    exact .binary hoperator hrow htext (Nat.le_trans hm hn) hl hr

def Lexical (ts : List Token) : Prop := ∀ t ∈ ts, t.kind = .unaryOp → t.text ≠ "("

theorem level?_unary {t : Token} (h : t.kind = .unaryOp) :
    level? t = some binaryOperators.length := if_pos h

theorem level?_binary {t : Token} (h : t.kind = .binaryOp) : level? t = binaryLevel? t.text :=
  if_neg (by rw [h]; simp)

theorem text_ne_of_binaryLevel? {operator : String} {level : Nat}
    (h : binaryLevel? operator = some level) :
    operator ≠ "(" ∧ operator ≠ ")" := by
  constructor <;> rintro rfl <;> cases h

/-! ## Completeness -/

/-- The yard is behind an expression of level `n`. Whatever comes next finds `output` and `waiting`,
after it has released the operators of the expression. -/
structure Settled (n : Nat) (s : Yard) (output waiting : List Token) : Prop where
  wants : s.wantsOperand = false
  release : ∀ level ≤ n, release level s.output s.waiting = release level output waiting
  group : releaseGroup? s.output s.waiting = releaseGroup? output waiting
  all : releaseAll? s.output s.waiting = releaseAll? output waiting

/-- The operator that waits for an expression is released behind it. -/
theorem Settled.operator {m n level : Nat} {s : Yard} {t : Token} {output waiting : List Token}
    (h : Settled m s output (t :: waiting)) (hlevel : level? t = some level) (htext : t.text ≠ "(")
    (hm : n ≤ m) (hn : n ≤ level) : Settled n s (t :: output) waiting where
  wants := h.wants
  release l hl := by
    rw [h.release l (Nat.le_trans hl hm), Expression.release, hlevel]
    exact if_pos (Nat.le_trans hl hn)
  group := by
    rw [h.group, releaseGroup?]
    exact if_neg (by simpa using htext)
  all := by
    rw [h.all, releaseAll?]
    exact if_neg (by simpa using htext)

def Holds (n : Nat) (waiting : List Token) : Prop :=
  ∀ level, n ≤ level → level < binaryOperators.length →
    ∀ output, release level output waiting = (output, waiting)

theorem foldlM_read_append {ts us : List Token} {s s₁ s₂ : Yard} (h : ts.foldlM read s = .ok s₁)
    (h' : us.foldlM read s₁ = .ok s₂) : (ts ++ us).foldlM read s = .ok s₂ := by
  rw [List.foldlM_append, h]
  exact h'

/-- An expression is read, and leaves its post-order. -/
theorem Parses.settled {n : Nat} {ts : List Token} {e : Term} (h : Parses n ts e) (hts : Lexical ts)
    {s : Yard} (hs : s.wantsOperand = true) (hwaiting : Holds n s.waiting) :
    ∃ s', ts.foldlM read s = .ok s' ∧ Settled n s' (e.postOrder.reverse ++ s.output) s.waiting := by
  induction h generalizing s with
  | operand ht =>
    refine ⟨_, foldlM_read_cons.mpr ⟨_, .operand ht hs, rfl⟩, ?_⟩
    exact ⟨rfl, fun _ _ => rfl, rfl, rfl⟩
  | @group n opening closing ts e hopening hclosing _ ih =>
    have hlevel : level? opening = none := by
      rw [level?_binary hopening.1, hopening.2]
      rfl
    have hread : Reads s opening _ := .wait (by rw [hopening.1]; rfl) hs (.inr hopening)
    obtain ⟨s₁, hrun, hsettled⟩ := ih (s := { s with waiting := opening :: s.waiting })
      (fun t ht => hts t (by simp [ht])) hs fun level _ _ output => by simp [release, hlevel]
    have hgroup : releaseGroup? s₁.output s₁.waiting =
        some (e.postOrder.reverse ++ s.output, s.waiting) := by
      rw [hsettled.group]
      simp [releaseGroup?, hopening.2]
    refine ⟨_, foldlM_read_cons.mpr ⟨_, hread, foldlM_read_append hrun
      (foldlM_read_cons.mpr ⟨_, .close hclosing.1 hclosing.2 hsettled.wants hgroup, rfl⟩)⟩, ?_⟩
    exact ⟨hsettled.wants, fun _ _ => rfl, rfl, rfl⟩
  | @unary n operator ts e hoperator hn _ ih =>
    have hread : Reads s operator _ := .wait (by rw [hoperator]; rfl) hs (.inl hoperator)
    obtain ⟨s₁, hrun, hsettled⟩ := ih (s := { s with waiting := operator :: s.waiting })
      (fun t ht => hts t (by simp [ht])) hs fun level hle hlt => absurd hlt (Nat.not_lt.mpr hle)
    refine ⟨s₁, foldlM_read_cons.mpr ⟨_, hread, hrun⟩, ?_⟩
    have hpopped :=
      hsettled.operator (level?_unary hoperator) (hts operator (by simp) hoperator) hn hn
    simpa [Term.postOrder] using hpopped
  | @binary n level operator row ls rs l r hoperator hrow htext hn _ _ ihl ihr =>
    have hlevel : binaryLevel? operator.text = some level :=
      binaryLevel?_eq_some_iff.mpr ⟨row, hrow, htext⟩
    have hlevel' : level? operator = some level := (level?_binary hoperator).trans hlevel
    have hparen := text_ne_of_binaryLevel? hlevel
    have hbound : level < binaryOperators.length := (List.getElem?_eq_some_iff.mp hrow).1
    obtain ⟨s₁, hleft, hsettled₁⟩ := ihl (fun t ht => hts t (by simp [ht])) hs
      fun k hk => hwaiting k (Nat.le_trans hn hk)
    have hread : Reads s₁ operator _ := .binary hoperator hparen hlevel hsettled₁.wants
    rw [hsettled₁.release level (Nat.le_refl level), hwaiting level hn hbound] at hread
    obtain ⟨s₂, hright, hsettled₂⟩ := ihr
      (s := ⟨l.postOrder.reverse ++ s.output, operator :: s.waiting, true⟩) (fun t ht =>
        hts t (by simp [ht])) rfl
      fun k hk _ output => by simp [release, hlevel', Nat.not_le.mpr hk]
    refine ⟨s₂, foldlM_read_append hleft (foldlM_read_cons.mpr ⟨_, hread, hright⟩), ?_⟩
    have hpopped := hsettled₂.operator hlevel' hparen.1 (Nat.le_trans hn (Nat.le_succ level)) hn
    simpa [Term.postOrder] using hpopped

/-- The evaluation order of an expression is its post-order. -/
theorem Parses.evalOrder_eq {ts : List Token} {e : Term} (h : Parses 0 ts e) (hts : Lexical ts) :
    evalOrder ts = .ok e.postOrder := by
  obtain ⟨s, hrun, hsettled⟩ := h.settled hts (s := .empty) rfl fun _ _ _ _ => rfl
  refine evalOrder_eq_ok.mpr ⟨s, e.postOrder.reverse, hrun, hsettled.wants, ?_,
    by rw [List.reverse_reverse]⟩
  rw [hsettled.all]
  simp [Yard.empty, releaseAll?]

/-! ## Soundness -/

/-- The tokens `ts` begin an expression, and an operand of level `n` has to follow. Of what was
read, `output` is released and `waiting` waits. -/
inductive Pending : Nat → List Token → List Token → List Token → Prop
  | start : Pending 0 [] [] []
  | group {n : Nat} {opening : Token} {ts output waiting : List Token}
      (h : Pending n ts output waiting)
      (hopening : opening.kind = .binaryOp ∧ opening.text = "(") :
      Pending 0 (ts ++ [opening]) output (opening :: waiting)
  | unary {n : Nat} {operator : Token} {ts output waiting : List Token}
      (h : Pending n ts output waiting)
      (hoperator : operator.kind = .unaryOp) (htext : operator.text ≠ "(") :
      Pending binaryOperators.length (ts ++ [operator]) output (operator :: waiting)
  | binary {n level : Nat} {operator : Token} {ts ls output waiting : List Token} {l : Term}
      (h : Pending n ts output waiting) (hoperator : operator.kind = .binaryOp)
      (hlevel : binaryLevel? operator.text = some level) (hn : n ≤ level) (hl : Parses level ls l) :
      Pending (level + 1) (ts ++ ls ++ [operator]) (l.postOrder.reverse ++ output)
        (operator :: waiting)

theorem level_lt {operator : String} {level : Nat} (h : binaryLevel? operator = some level) :
    level < binaryOperators.length := by
  obtain ⟨row, hrow, -⟩ := binaryLevel?_eq_some_iff.mp h
  exact (List.getElem?_eq_some_iff.mp hrow).1

theorem Pending.le_length {n : Nat} {ts output waiting : List Token}
    (h : Pending n ts output waiting) :
    n ≤ binaryOperators.length := by
  cases h with
  | start | group => exact Nat.zero_le _
  | unary => exact Nat.le_refl _
  | binary _ _ hlevel => exact level_lt hlevel

/-- The tokens begin an expression with an operand of this level at the end. -/
inductive Ends (level : Nat) : List Token → List Token → List Token → Prop
  | intro {n : Nat} {ts as output waiting : List Token} {e : Term} (h : Pending n ts output waiting)
      (hn : n ≤ level)
      (he : Parses level as e) : Ends level (ts ++ as) (e.postOrder.reverse ++ output) waiting

section

variable {level : Nat} {ts output waiting : List Token} {t : Token}

/-- The operand at the end completes the operator that waits for it. -/
theorem Ends.complete (h : Ends level ts output (t :: waiting)) (ht : t.text ≠ "(") :
    ∃ l, level? t = some l ∧ Ends l ts (t :: output) waiting := by
  obtain ⟨hpending, hn, he⟩ := h
  cases hpending with
  | group _ hopening => exact absurd hopening.2 ht
  | unary h hoperator htext =>
    refine ⟨_, level?_unary hoperator, ?_⟩
    have hends := Ends.intro h h.le_length (.unary hoperator (Nat.le_refl _) (he.mono hn))
    simpa [Term.postOrder] using hends
  | @binary n l _ _ ls output _ left h hoperator hlevel hle hl =>
    refine ⟨l, (level?_binary hoperator).trans hlevel, ?_⟩
    obtain ⟨row, hrow, hmem⟩ := binaryLevel?_eq_some_iff.mp hlevel
    have hends := Ends.intro h hle (.binary hoperator hrow hmem (Nat.le_refl _) hl (he.mono hn))
    simpa [Term.postOrder] using hends

/-- The operand at the end is one of a looser level, as long as it is tighter than the operator
before it. -/
theorem Ends.loosen {k : Nat} (h : Ends level ts output waiting) (hk : k ≤ level)
    (hwaiting : ∀ t, waiting.head? = some t → ∀ l, level? t = some l → l < k) :
    Ends k ts output waiting := by
  obtain ⟨hpending, hn, he⟩ := h
  refine .intro hpending ?_ (he.mono hk)
  cases hpending with
  | start | group => exact Nat.zero_le k
  | unary _ hoperator => exact Nat.le_of_lt (hwaiting _ rfl _ (level?_unary hoperator))
  | binary _ hoperator hlevel => exact hwaiting _ rfl _ ((level?_binary hoperator).trans hlevel)

theorem Ends.level?_group (h : Ends level ts output (t :: waiting)) (ht : t.text = "(") :
    level? t = none := by
  obtain ⟨hpending, -, -⟩ := h
  cases hpending with
  | group _ hopening =>
    rw [level?_binary hopening.1, hopening.2]
    rfl
  | unary _ _ htext => exact absurd ht htext
  | binary _ _ hlevel => exact absurd ht (text_ne_of_binaryLevel? hlevel).1

/-- Releasing operators puts terms together. -/
theorem Ends.release {k : Nat} (h : Ends level ts output waiting) (hk : k ≤ level) :
    Ends k ts (Expression.release k output waiting).1 (Expression.release k output waiting).2 := by
  induction waiting generalizing level output with
  | nil => exact h.loosen hk (by simp)
  | cons t waiting ih =>
    by_cases ht : t.text = "("
    · have hnone := h.level?_group ht
      simp only [Expression.release, hnone]
      exact h.loosen hk (by simp [hnone])
    · obtain ⟨l, hlevel, hends⟩ := h.complete ht
      simp only [Expression.release, hlevel]
      split
      · next hle => exact ih hends hle
      · next hlt => exact h.loosen hk (by simpa [hlevel] using hlt)

/-- A closing parenthesis puts the group together. -/
theorem Ends.releaseGroup? {output' waiting' : List Token} (h : Ends level ts output waiting)
    (hgroup : releaseGroup? output waiting = some (output', waiting')) {closing : Token}
    (hclosing : closing.kind = .binaryOp ∧ closing.text = ")") :
    Ends binaryOperators.length (ts ++ [closing]) output' waiting' := by
  induction waiting generalizing level output with
  | nil => cases hgroup
  | cons t waiting ih =>
    unfold Expression.releaseGroup? at hgroup
    split at hgroup
    · next ht =>
      cases hgroup
      have ht : t.text = "(" := by simpa using ht
      obtain ⟨hpending, -, he⟩ := h
      cases hpending with
      | group h hopening =>
        have hends := Ends.intro h h.le_length (.group hopening hclosing (he.mono (Nat.zero_le _)))
        simpa using hends
      | unary _ _ htext => exact absurd ht htext
      | binary _ _ hlevel => exact absurd ht (text_ne_of_binaryLevel? hlevel).1
    · next ht =>
      obtain ⟨l, -, hends⟩ := h.complete (by simpa using ht)
      exact ih hends hgroup

/-- The end of the tokens puts the whole expression together. -/
theorem Ends.releaseAll? {output' : List Token} (h : Ends level ts output waiting)
    (hall : releaseAll? output waiting = some output') :
    ∃ e, Parses 0 ts e ∧ output' = e.postOrder.reverse := by
  induction waiting generalizing level output with
  | nil =>
    cases hall
    obtain ⟨hpending, -, he⟩ := h
    cases hpending
    exact ⟨_, he.mono (Nat.zero_le _), by simp⟩
  | cons t waiting ih =>
    unfold Expression.releaseAll? at hall
    split at hall
    · cases hall
    · next ht =>
      obtain ⟨l, -, hends⟩ := h.complete (by simpa using ht)
      exact ih hends hall

end

def Yard.Begins (ts : List Token) (s : Yard) : Prop :=
  if s.wantsOperand then ∃ n, Pending n ts s.output s.waiting
  else Ends binaryOperators.length ts s.output s.waiting

/-- Reading a token goes on with the expression. -/
theorem Reads.begins {s s' : Yard} {t : Token} {ts : List Token} (h : Reads s t s')
    (ht : t.kind = .unaryOp → t.text ≠ "(") (hs : s.Begins ts) : s'.Begins (ts ++ [t]) := by
  unfold Yard.Begins at hs
  cases h with
  | operand hkind hwants =>
    rw [if_pos hwants] at hs
    obtain ⟨n, hpending⟩ := hs
    exact .intro hpending hpending.le_length (.operand hkind)
  | wait _ hwants hop =>
    rw [if_pos hwants] at hs
    obtain ⟨n, hpending⟩ := hs
    rw [Yard.Begins, if_pos hwants]
    rcases hop with hunary | hopening
    · exact ⟨_, hpending.unary hunary (ht hunary)⟩
    · exact ⟨_, hpending.group hopening⟩
  | close hkind htext hwants hgroup =>
    rw [if_neg (by simp [hwants])] at hs
    rw [Yard.Begins, if_neg (by simp [hwants])]
    exact hs.releaseGroup? hgroup ⟨hkind, htext⟩
  | @binary level hkind _ hlevel hwants =>
    rw [if_neg (by simp [hwants])] at hs
    have hends := hs.release (Nat.le_of_lt (level_lt hlevel))
    generalize release level s.output s.waiting = released at hends ⊢
    obtain ⟨output, waiting⟩ := released
    obtain ⟨hpending, hn, he⟩ := hends
    exact ⟨_, hpending.binary hkind hlevel hn he⟩

theorem foldlM_read_begins {ts us : List Token} {s s' : Yard} (hus : Lexical us) (hs : s.Begins ts)
    (hrun : us.foldlM read s = .ok s') : s'.Begins (ts ++ us) := by
  induction us generalizing ts s with
  | nil =>
    cases hrun
    simpa using hs
  | cons t us ih =>
    obtain ⟨s₁, hreads, hrest⟩ := foldlM_read_cons.mp hrun
    have hbegins := ih (fun u hu => hus u (by simp [hu])) (hreads.begins (hus t (by simp)) hs) hrest
    simpa using hbegins

/-- What has an evaluation order is an expression, and the order is its post-order. -/
theorem exists_parses {ts order : List Token} (hts : Lexical ts) (h : evalOrder ts = .ok order) :
    ∃ e, Parses 0 ts e ∧ e.postOrder = order := by
  obtain ⟨s, output, hrun, hwants, hall, rfl⟩ := evalOrder_eq_ok.mp h
  have hempty : Yard.empty.Begins [] := ⟨0, .start⟩
  have hbegins := foldlM_read_begins hts hempty hrun
  rw [Yard.Begins, if_neg (by simp [hwants])] at hbegins
  obtain ⟨e, he, rfl⟩ := hbegins.releaseAll? hall
  exact ⟨e, he, by simp⟩

/-! ## Uniqueness -/

def rebuild (stack : List Term) (t : Token) : List Term :=
  match t.kind, stack with
  | .unaryOp, e :: stack => .unary t e :: stack
  | .binaryOp, r :: l :: stack => .binary t l r :: stack
  | _, stack => .operand t :: stack

/-- The kinds of the tokens tell how the term of an expression was put together. -/
theorem Parses.rebuild_postOrder {n : Nat} {ts : List Token} {e : Term} (h : Parses n ts e)
    (stack : List Term) :
    e.postOrder.foldl rebuild stack = e :: stack := by
  induction h generalizing stack with
  | @operand n t ht =>
    cases hkind : t.kind <;> simp [TokenKind.isOperand, hkind] at ht <;>
      simp [Term.postOrder, rebuild, hkind]
  | group _ _ _ ih => exact ih stack
  | unary hoperator _ _ ih => simp [Term.postOrder, ih, rebuild, hoperator]
  | binary hoperator _ _ _ _ _ ihl ihr => simp [Term.postOrder, ihl, ihr, rebuild, hoperator]

theorem Parses.postOrder_injective {n n' : Nat} {ts ts' : List Token} {e e' : Term}
    (h : Parses n ts e) (h' : Parses n' ts' e') (heq : e.postOrder = e'.postOrder) : e = e' := by
  have hstack := h.rebuild_postOrder []
  rw [heq, h'.rebuild_postOrder []] at hstack
  exact (List.cons.inj hstack).1.symm

/-! ## Tokens of lines -/

/-- A token that is spelled like a unary operator is no parenthesis. -/
theorem ne_group_of_spelled {t : Token} {b : Bool} (h : Token.Spelled b t.kind t.text.toList)
    (hkind : t.kind = .unaryOp) :
    t.text ≠ "(" := by
  intro htext
  rw [hkind, htext] at h
  generalize hcs : "(".toList = cs at h
  cases h with
  | symbol _ hop =>
    rw [← String.toList_inj.mp hcs] at hop
    cases b <;> cases hop

theorem lexical_of_tokenize {ts : List Token}
    (h : ∀ t ∈ ts, ∃ line whole, t ∈ Token.tokenize line whole) :
    Lexical ts := by
  have hbody : ∀ whole offset cs, ∀ t ∈ Token.lexBody whole offset cs, t.kind = .unaryOp →
      t.text ≠ "(" := by
    intro whole offset cs t ht hkind
    have hlex : ∀ offset cs, t ∈ Token.lex offset false cs → t.text ≠ "(" := fun offset cs ht =>
      ne_group_of_spelled (Token.lex_spelled offset false cs t ht).choose_spec hkind
    unfold Token.lexBody at ht
    split at ht
    · split at ht
      · rw [List.mem_singleton] at ht
        rw [ht] at hkind
        cases hkind
      · rcases List.mem_cons.mp ht with rfl | ht
        · cases hkind
        · exact hlex _ _ ht
    · exact hlex _ _ ht
  intro t ht hkind
  obtain ⟨line, whole, hmem⟩ := h t ht
  unfold Token.tokenize at hmem
  dsimp only at hmem
  split at hmem
  · exact hbody _ _ _ t hmem hkind
  · rcases List.mem_cons.mp hmem with rfl | hmem
    · cases hkind
    · exact hbody _ _ _ t hmem hkind

/-- Tokens of lines have an evaluation order exactly if they are an expression. The order is then
the post-order of the one term that the expression has. Otherwise some error of expressions is
given. -/
theorem evalOrder_eq_ok_iff_parses {ts : List Token}
    (h : ∀ t ∈ ts, ∃ line whole, t ∈ Token.tokenize line whole) :
    (∀ order, evalOrder ts = .ok order ↔ ∃ e, Parses 0 ts e ∧ e.postOrder = order) ∧
    (∀ e e', Parses 0 ts e → Parses 0 ts e' → e = e') ∧
    ((∀ e, ¬ Parses 0 ts e) → ∃ error, evalOrder ts = .error error ∧ error.code ∈
      ["EXPRESSION_OPERATOR_MISSING", "EXPRESSION_OPERAND_MISSING",
        "EXPRESSION_PARENTHESIS_UNBALANCED", "EXPRESSION_OPERATOR_INVALID",
        "EXPRESSION_TOKEN_INVALID"]) := by
  have hts := lexical_of_tokenize h
  refine ⟨fun order => ⟨exists_parses hts, ?_⟩, fun e e' he he' => ?_, fun hnone => ?_⟩
  · rintro ⟨e, he, rfl⟩
    exact he.evalOrder_eq hts
  · exact he.postOrder_injective he'
      (Except.ok.inj ((he.evalOrder_eq hts).symm.trans (he'.evalOrder_eq hts)))
  · cases horder : evalOrder ts with
    | ok order =>
      obtain ⟨e, he, -⟩ := exists_parses hts horder
      exact absurd he (hnone e)
    | error error => exact ⟨error, rfl, by cases error <;> simp [ExpressionError.code]⟩

def signedProduct : List Token :=
  Token.significant (Token.tokenize "! -(1 + $b) * 2 - 3 < $c" false)

/-- The expression has a term, with the signs behind the group, the product before the difference
and the comparison last. -/
theorem signedProduct_parses : (∀ t ∈ signedProduct, ∃ line whole, t ∈ Token.tokenize line whole) ∧
    ∃ e, Parses 0 signedProduct e ∧
      e.postOrder.map Token.text = ["1", "$b", "+", "-", "!", "2", "*", "3", "-", "$c", "<"] := by
  have hmem : ∀ t ∈ signedProduct, ∃ line whole, t ∈ Token.tokenize line whole :=
    fun t ht => ⟨_, _, (List.mem_filter.mp ht).1⟩
  have hevaluates : (evalOrder signedProduct).toOption.map (List.map Token.text) =
      some ["1", "$b", "+", "-", "!", "2", "*", "3", "-", "$c", "<"] := by
    decide +kernel
  cases horder : evalOrder signedProduct with
  | error e =>
    rw [horder] at hevaluates
    cases hevaluates
  | ok order =>
    rw [horder] at hevaluates
    obtain ⟨e, he, rfl⟩ := ((evalOrder_eq_ok_iff_parses hmem).1 order).mp horder
    exact ⟨hmem, e, he, Option.some.inj hevaluates⟩

end GameScript.Expression
