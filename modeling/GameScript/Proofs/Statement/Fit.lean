import GameScript.Statement.Fit

/-!
# What a fitted form binds

A form that fits a line binds tokens to its parameters, piece by piece (`Entry.Fits`). Each
parameter gets what its kind takes, and the conditional is spelled by the tokens of the return slot.

* `Entry.Binds.fits`: the tokens of every parameter are tokens of the line, and its kind takes them.
  A parameter that the template shows is bound.
* `Entry.front_of_fit`: where only the first piece of a template can be a return slot, the
  conditional is the one at the front of the line.
-/

namespace GameScript

/-! ## What kinds take -/

def Token.startsValue (t : Token) : Bool := t.kind.isOperand || t.is .unaryOp "-"

def Token.IsValue (ts : List Token) : Prop :=
  (∃ t, ts = [t] ∧ t.kind.isOperand = true) ∨ ∃ m n, ts = [m, n] ∧ m.is .unaryOp "-" = true ∧
  n.kind = .number

theorem Token.IsValue.startsValue {ts : List Token} (h : IsValue ts) :
    ∃ t rest, ts = t :: rest ∧ t.startsValue = true := by
  rcases h with ⟨t, rfl, ht⟩ | ⟨m, n, rfl, hm, -⟩
  · exact ⟨t, [], rfl, by simp [Token.startsValue, ht]⟩
  · exact ⟨m, [n], rfl, by simp [Token.startsValue, hm]⟩

inductive Token.IsValueList : List Token → Prop
  | last {ts : List Token} (h : IsValue ts) : IsValueList ts
  | more {ts : List Token} {comma : Token} {rest : List Token} (h : IsValue ts)
      (hcomma : comma.isComma = true)
      (hrest : IsValueList rest) : IsValueList (ts ++ comma :: rest)

theorem Token.IsValueList.startsValue {ts : List Token} (h : IsValueList ts) :
    ∃ t rest, ts = t :: rest ∧ t.startsValue = true := by
  cases h with
  | last h => exact h.startsValue
  | more h _ _ =>
    obtain ⟨t, rest, rfl, ht⟩ := h.startsValue
    exact ⟨t, _, rfl, ht⟩

/-! ## Spelling a conditional -/

/-- The tokens spell the conditional. -/
inductive Conditional.Spelled : Conditional → List Token → Prop
  /-- Keywords spell a branch or a start. -/
  | keywords {c : Conditional} {ts : List Token} (hc : c.keywords ≠ []) (hkind : ∀ t ∈ ts,
      t.kind = .keyword)
      (htext : ts.map Token.text = c.keywords) : Spelled c ts
  /-- A variable and an equals sign spell an assignment. -/
  | assign {v e : Token} (hv : v.kind = .var) (he : e.is .binaryOp "=" = true) : Spelled
      .assign [v, e]
  /-- Nothing spells a discarded result. -/
  | discard : Spelled .discard []

namespace ParamKind

/-- What a parameter of this kind can be bound to. -/
def Takes : ParamKind → List Token → Prop
  | .labelName, ts => ∃ t, ts = [t] ∧ t.kind = .label
  | .retVar, ts | .retVarIf, ts | .retVarIfStart, ts =>
    (∀ t ∈ ts, t.kind = .keyword) ∨ ∃ t u, ts = [t, u] ∧ t.kind = .var ∧ u.is .binaryOp "=" = true
  | .expression, ts => ∀ t ∈ ts, (t.kind.isOperand || t.kind.isOperator) = true
  | .valueList, ts => Token.IsValueList ts
  | _, ts => Token.IsValue ts

variable {ts : List Token} {n : Nat}

theorem isValue_of_valueLength? (h : valueLength? ts = some n) : Token.IsValue (ts.take n) := by
  cases ts with
  | nil => simp [valueLength?] at h
  | cons t rest =>
    simp only [valueLength?] at h
    split at h
    · next hminus =>
      split at h
      · next k _ =>
        split at h
        · cases h
          exact .inr ⟨t, k, rfl, hminus, by assumption⟩
        · cases h
      · cases h
    · split at h
      · next hoperand =>
        cases h
        exact .inl ⟨t, rfl, hoperand⟩
      · cases h

theorem isValueList_of_valueListLength? (h : valueListLength? ts = some n) :
    Token.IsValueList (ts.take n) := by
  fun_induction valueListLength? ts generalizing n with
  | case1 => cases h
  | case2 ts m hm t rest hdrop hcomma ih =>
    obtain ⟨k, hk, rfl⟩ := Option.map_eq_some_iff.mp h
    have hsplit : ts.take (m + 1 + k) = ts.take m ++ t :: rest.take k := by
      rw [Nat.add_assoc, List.take_add, hdrop, Nat.add_comm 1 k, List.take_succ_cons]
    rw [hsplit]
    exact .more (isValue_of_valueLength? hm) hcomma (ih hk)
  | case3 ts m hm t rest hdrop hcomma =>
    cases h
    exact .last (isValue_of_valueLength? hm)
  | case4 ts m hm hdrop =>
    cases h
    exact .last (isValue_of_valueLength? hm)

theorem isExpression_of_expressionLength? {stop : Option String}
    (h : expressionLength? stop ts = some n) :
    ∀ t ∈ ts.take n, (t.kind.isOperand || t.kind.isOperator) = true := by
  unfold expressionLength? at h
  dsimp only at h
  split at h
  · cases h
  · next hinner =>
    cases h
    simp only [Bool.or_eq_true, Bool.not_eq_true', not_or, Bool.not_eq_false,
      List.all_eq_true] at hinner
    have htake : ts.take (ts.takeWhile fun t => stop != some t.text).length =
        ts.takeWhile fun t => stop != some t.text :=
      (List.prefix_iff_eq_take.mp (List.takeWhile_prefix _)).symm
    rw [htake]
    exact fun t ht => by simpa using hinner.2 t ht

theorem keywords_of_startsWith {ws : List String} (h : startsWith ws ts = true) :
    (∀ t ∈ ts.take ws.length, t.kind = .keyword) ∧ (ts.take ws.length).map Token.text = ws := by
  induction ws generalizing ts with
  | nil => simp
  | cons w ws ih =>
    cases ts with
    | nil => cases h
    | cons t ts =>
      simp only [startsWith, Token.is, Bool.and_eq_true, beq_iff_eq] at h
      rw [List.length_cons, List.take_succ_cons, List.map_cons, (ih h.2).2, h.1.2]
      exact ⟨List.forall_mem_cons.mpr ⟨h.1.1, (ih h.2).1⟩, rfl⟩

/-- The tokens at the front of a line that a return slot takes spell the conditional that is found
there. -/
theorem spelled_of_conditionalAt {c : Conditional} (h : conditionalAt ts = (c, n)) :
    c.Spelled (ts.take n) := by
  have hspelled : ∀ c ∈ spelled, c.keywords ≠ [] := by decide
  unfold conditionalAt at h
  split at h
  · next c' hc =>
    cases h
    have hstarts := List.find?_some hc
    exact .keywords (hspelled _ (List.mem_of_find?_eq_some hc)) (keywords_of_startsWith hstarts).1
      (keywords_of_startsWith hstarts).2
  · rcases ts with _ | ⟨v, _ | ⟨e, ts⟩⟩
    · cases h
      exact .discard
    · cases h
      exact .discard
    · dsimp only at h
      split at h
      · next hassign =>
        cases h
        rw [Bool.and_eq_true, decide_eq_true_eq] at hassign
        exact .assign hassign.1 hassign.2
      · cases h
        exact .discard

/-- A parameter takes what its kind says. -/
theorem takes_of_takeLength? {kind : ParamKind} {stop : Option String}
    (hkind : kind.isReturnSlot = false) (h : kind.takeLength? stop ts = some n) :
    kind.Takes (ts.take n) := by
  cases kind <;> simp only [takeLength?] at h
  case labelName =>
    split at h
    · next t rest =>
      split at h
      · next hlabel =>
        cases h
        exact ⟨t, rfl, hlabel⟩
      · cases h
    · cases h
  case valueList => exact isValueList_of_valueListLength? h
  case expression => exact isExpression_of_expressionLength? h
  case retVar | retVarIf | retVarIfStart => cases hkind
  all_goals exact isValue_of_valueLength? h

end ParamKind

namespace Conditional.Spelled

/-- A return slot takes keywords, or a variable and an equals sign. -/
theorem takes {c : Conditional} {ts : List Token} (h : c.Spelled ts) {kind : ParamKind}
    (hkind : kind.isReturnSlot = true) : kind.Takes ts := by
  have htakes : (∀ t ∈ ts, t.kind = .keyword) ∨ ∃ t u, ts = [t, u] ∧ t.kind = .var ∧
      u.is .binaryOp "=" = true := by
    cases h with
    | keywords _ hkinds _ => exact .inl hkinds
    | assign hv he => exact .inr ⟨_, _, rfl, hv, he⟩
    | discard => exact .inl (by simp)
  cases kind <;> first | exact htakes | cases hkind

theorem assigned {ts : List Token} (h : Spelled .assign ts) :
    ∃ v e, ts = [v, e] ∧ v.kind = .var ∧ e.is .binaryOp "=" = true := by
  cases h with
  | keywords hne => exact absurd rfl hne
  | assign hv he => exact ⟨_, _, rfl, hv, he⟩

end Conditional.Spelled

/-! ## Bindings -/

namespace Entry

/-- Each binding so far is one that the kind of the parameter takes, and an assigned variable is the
first token of a return slot. -/
structure Binds (f : Form) (line : List Token) (m : Fit) : Prop where
  length : m.slots.length = f.params.length
  tokens : ∀ (i : Nat) (ts : List Token), m.slots[i]? = some (some ts) → ts ⊆ line
  takes : ∀ (i : Nat) (ts : List Token) (kind : ParamKind), m.slots[i]? = some (some ts) →
    f.kindAt? i = some kind → kind.Takes ts
  slot : m.conditional ≠ .discard → ∃ (i : Nat) (kind : ParamKind) (ts : List Token),
    f.kindAt? i = some kind ∧ kind.isReturnSlot = true ∧ m.slots[i]? = some (some ts) ∧
      (m.conditional = .assign → ∃ v rest, ts = v :: rest ∧ v.kind = .var)

theorem Binds.empty (f : Form) (line : List Token) : Binds f line (Fit.empty f) := by
  refine ⟨by simp [Fit.empty], ?_, ?_, ?_⟩
  · intro i ts h
    simp only [Fit.empty, List.getElem?_map, Option.map_eq_some_iff] at h
    obtain ⟨_, _, h⟩ := h
    cases h
  · intro i ts kind h
    simp only [Fit.empty, List.getElem?_map, Option.map_eq_some_iff] at h
    obtain ⟨_, _, h⟩ := h
    cases h
  · intro h
    exact absurd rfl h

/-- The pieces take these tokens, one piece after the other, and what is bound before changes to
what is bound after. -/
inductive Fits (f : Form) : List Piece → List Token → Fit → Fit → Prop
  | nil {m : Fit} : Fits f [] [] m m
  | literal {t : Token} {ps : List Piece} {ts : List Token} {m m' : Fit}
      (hrest : Fits f ps ts m m') :
      Fits f (.literal t.text :: ps) (t :: ts) m m'
  | slot {index : Nat} {kind : ParamKind} {c : Conditional} {run ts : List Token} {ps : List Piece}
      {m m' : Fit}
      (hkind : f.kindAt? index = some kind) (htakes : kind.Takes run)
      (hreturn : kind.isReturnSlot = true →
        c = (ParamKind.conditionalAt (run ++ ts)).1 ∧ c.Spelled run ∧ kind.allows c = true)
      (hplain : kind.isReturnSlot = false → c = m.conditional)
      (hrest : Fits f ps ts { m.bind index run with conditional := c } m') : Fits f
      (.slot index :: ps) (run ++ ts) m m'

theorem fits_of_fitPieces? {f : Form} {ps : List Piece} {ts : List Token} {m m' : Fit}
    (h : fitPieces? f ps ts m = some m') : Fits f ps ts m m' := by
  fun_induction fitPieces? f ps ts m with
  | case1 =>
    cases h
    exact .nil
  | case4 text ps t ts m htext ih =>
    rw [← eq_of_beq htext]
    exact .literal (ih h)
  | case8 index ps ts m kind hkind hslot c n hlength ih =>
    obtain ⟨hc, hallows⟩ : ParamKind.conditionalAt ts = (c, n) ∧ kind.allows c = true := by
      simp only [ParamKind.returnLength?, Option.ite_none_right_eq_some] at hlength
      obtain ⟨hallows, hc⟩ := hlength
      obtain rfl := congrArg Prod.fst (Option.some.inj hc)
      exact ⟨Option.some.inj hc, hallows⟩
    have hspelled := ParamKind.spelled_of_conditionalAt hc
    rw [← List.take_append_drop n ts]
    refine .slot hkind (hspelled.takes hslot) (fun _ => ⟨?_, hspelled, hallows⟩) (fun hno =>
      ?_) (ih h)
    · rw [List.take_append_drop, hc]
    · rw [hslot] at hno
      cases hno
  | case10 index ps ts m kind hkind hslot n hlength ih =>
    rw [← List.take_append_drop n ts]
    have hplain : kind.isReturnSlot = false := by simpa using hslot
    exact .slot hkind (ParamKind.takes_of_takeLength? hplain hlength) (fun hc => absurd hc hslot)
      (fun _ => rfl) (ih h)
  | _ => cases h

theorem slots_bind {m : Fit} {index i : Nat} (hlt : index < m.slots.length) (ts : List Token) :
    (m.bind index ts).slots[i]? = if i = index then some (some ts) else m.slots[i]? := by
  simp only [Fit.bind]
  by_cases h : i = index
  · subst h
    simp [hlt]
  · simp [h, List.getElem?_set_ne (Ne.symm h)]

theorem kindAt?_lt {f : Form} {i : Nat} {kind : ParamKind} (h : f.kindAt? i = some kind) :
    i < f.params.length := by
  simp only [Form.kindAt?, Option.map_eq_some_iff] at h
  obtain ⟨_, h, _⟩ := h
  exact (List.getElem?_eq_some_iff.mp h).1

theorem Binds.bind {f : Form} {line run : List Token} {m : Fit} {index : Nat} {kind : ParamKind}
    {c : Conditional} (h : Binds f line m) (hkind : f.kindAt? index = some kind) (hrun : run ⊆ line)
    (htakes : kind.Takes run) (hreturn : kind.isReturnSlot = true → c.Spelled run)
    (hplain : kind.isReturnSlot = false → c = m.conditional) :
    Binds f line { m.bind index run with conditional := c } := by
  have hlt : index < m.slots.length := h.length ▸ kindAt?_lt hkind
  have hslots : ∀ i, ({ m.bind index run with conditional := c } : Fit).slots[i]? =
      if i = index then some (some run) else m.slots[i]? := fun i => slots_bind hlt _
  refine ⟨by simp [Fit.bind, h.length], ?_, ?_, ?_⟩
  · intro i us hi
    rw [hslots] at hi
    split at hi
    · cases hi
      exact hrun
    · exact h.tokens i us hi
  · intro i us k hi hk
    rw [hslots] at hi
    split at hi
    · next heq =>
      cases hi
      rw [heq, hkind] at hk
      cases hk
      exact htakes
    · exact h.takes i us k hi hk
  · intro hc
    cases hslot : kind.isReturnSlot with
    | true =>
      refine ⟨index, kind, run, hkind, hslot, by rw [hslots, if_pos rfl], ?_⟩
      rintro rfl
      obtain ⟨v, e, hrun, hv, -⟩ := (hreturn hslot).assigned
      exact ⟨v, [e], hrun, hv⟩
    | false =>
      obtain rfl := hplain hslot
      obtain ⟨i, k, us, hk, hsome, hi, hassign⟩ := h.slot hc
      refine ⟨i, k, us, hk, hsome, ?_, hassign⟩
      rw [hslots, if_neg, hi]
      rintro rfl
      rw [hkind] at hk
      cases hk
      rw [hslot] at hsome
      cases hsome

variable {m : Fit} {ps : List Piece} {ts : List Token}

/-- Binding a parameter keeps what is bound. -/
theorem bound_bind {index i : Nat} (hlt : index < m.slots.length)
    (hi : Piece.slot i ∈ Piece.slot index :: ps ∨ ∃ us, m.slots[i]? = some (some us)) :
    Piece.slot i ∈ ps ∨ ∃ us, (m.bind index ts).slots[i]? = some (some us) := by
  rw [slots_bind hlt]
  by_cases h : i = index
  · exact .inr ⟨ts, by rw [if_pos h]⟩
  · rw [if_neg h]
    simpa [h] using hi

/-- What fitting the remaining pieces binds, and that it forgets nothing. -/
theorem Binds.fits {f : Form} {line : List Token} {m' : Fit} (hfit : Fits f ps ts m m')
    (h : Binds f line m) (hts : ts ⊆ line) : Binds f line m' ∧
    ∀ i : Nat, (.slot i ∈ ps ∨ ∃ us, m.slots[i]? = some (some us)) →
      ∃ us, m'.slots[i]? = some (some us) := by
  induction hfit with
  | nil => exact ⟨h, by simp⟩
  | literal _ ih =>
    obtain ⟨hbinds, hbound⟩ := ih h (List.cons_subset.mp hts).2
    refine ⟨hbinds, fun i hi => hbound i ?_⟩
    simpa using hi
  | slot hkind htakes hreturn hplain _ ih =>
    obtain ⟨hrun, hts⟩ := List.append_subset.mp hts
    obtain ⟨hbinds, hbound⟩ :=
      ih (h.bind hkind hrun htakes (fun hslot => (hreturn hslot).2.1) hplain) hts
    exact ⟨hbinds, fun i hi => hbound i (bound_bind (h.length ▸ kindAt?_lt hkind) hi)⟩

/-! ## The front of a line -/

def isReturnPiece (f : Form) : Piece → Bool
  | .literal _ => false
  | .slot index => (f.kindAt? index).any ParamKind.isReturnSlot

/-- Pieces that are no return slots leave the conditional alone. -/
theorem Fits.conditional_eq {f : Form} {m' : Fit} (h : Fits f ps ts m m')
    (hps : ∀ p ∈ ps, isReturnPiece f p = false) :
    m'.conditional = m.conditional := by
  induction h with
  | nil => rfl
  | literal _ ih => exact ih fun p hp => hps p (List.mem_cons_of_mem _ hp)
  | @slot index _ _ _ _ _ _ _ hkind _ _ hplain _ ih =>
    refine (ih fun p hp => hps p (List.mem_cons_of_mem _ hp)).trans (hplain ?_)
    simpa [isReturnPiece, hkind] using hps (.slot index) (by simp)

/-- What the first piece of a template takes from the front of a line. -/
inductive Front (e : Entry) (ts : List Token) (c : Conditional) : Prop
  | literal {text : String} {ps : List Piece} {t : Token} {rest : List Token}
      (hpieces : e.pieces = .literal text :: ps) (hts : ts = t :: rest) (htext : t.text = text)
      (hc : c = .discard)
  | returnSlot {index : Nat} {ps : List Piece} {kind : ParamKind} (hpieces : e.pieces =
      .slot index :: ps)
      (hkind : e.form.kindAt? index = some kind) (hslot : kind.isReturnSlot = true)
      (hc : c = (ParamKind.conditionalAt ts).1)
  | slot {index n : Nat} {ps : List Piece} {kind : ParamKind} (hpieces : e.pieces =
      .slot index :: ps)
      (hkind : e.form.kindAt? index = some kind) (hslot : kind.isReturnSlot = false)
      (htakes : kind.Takes (ts.take n)) (hc : c = .discard)
  | empty (hpieces : e.pieces = []) (hc : c = .discard)

theorem front_of_fit {e : Entry} (hfit : e.fit? ts = some m)
    (hps : ∀ p ∈ e.pieces.tail, isReturnPiece e.form p = false) : e.Front ts m.conditional := by
  have hfits : Fits e.form e.pieces ts (.empty e.form) m := fits_of_fitPieces? hfit
  generalize hpieces : e.pieces = ps at hfits hps
  cases hfits with
  | nil => exact .empty hpieces rfl
  | literal hrest => exact .literal hpieces rfl rfl (hrest.conditional_eq hps)
  | @slot index kind c run ts ps _ _ hkind htakes hreturn hplain hrest =>
    have hc := hrest.conditional_eq hps
    cases hslot : kind.isReturnSlot with
    | true => exact .returnSlot hpieces hkind hslot (hc.trans (hreturn hslot).1)
    | false =>
      exact .slot (n := run.length) hpieces hkind hslot (by rwa [List.take_left])
        (hc.trans (hplain hslot))

end Entry

end GameScript
