import GameScript.Proofs.Execution.Machine
import GameScript.Proofs.Shorthand.Sentences

/-!
# Commands that compute

The usual meaning of expressions over whole numbers: numbers, variables, `+`, `-`, `<`, `>` and the
minus sign. An expression is evaluated on a stack, in the order that the compiler puts its tokens
in. `Tree.arithmetic` is the meaning of the commands of a tree over stores of numbers: an expression
is assigned to a variable or tested, and everything else does nothing.
-/

namespace GameScript

universe u

/-! ## Evaluation -/

namespace Expression

/-- What an operator makes of two numbers. A comparison gives one or zero. -/
def combine? (operator : String) (a b : Int) : Option Int :=
  if operator = "+" then some (a + b)
  else if operator = "-" then some (a - b)
  else if operator = "<" then some (if a < b then 1 else 0)
  else if operator = ">" then some (if b < a then 1 else 0)
  else none

theorem combine?_add (a b : Int) : combine? "+" a b = some (a + b) := rfl

theorem combine?_sub (a b : Int) : combine? "-" a b = some (a - b) := rfl

/-- Evaluate one token on a stack of numbers. -/
def evalToken? (store : String → Int) (stack : List Int) (t : Token) : Option (List Int) :=
  match t.kind, stack with
  | .number, stack => (Text.numeral64? t.text).map (· :: stack)
  | .var, stack => some (store t.value :: stack)
  | .unaryOp, a :: stack => if t.text = "-" then some (-a :: stack) else none
  | .binaryOp, b :: a :: stack => (combine? t.text a b).map (· :: stack)
  | _, _ => none

def evalTokens? (store : String → Int) (order : List Token) : Option Int :=
  match order.foldlM (evalToken? store) [] with
  | some [v] => some v
  | _ => none

def eval? (store : String → Int) (ts : List Token) : Option Int :=
  match evalOrder ts with
  | .ok order => evalTokens? store order
  | .error _ => none

variable {store : String → Int} {ts : List Token}

theorem evalTokens?_bare (order : List Token) :
    evalTokens? store (order.map Token.bare) = evalTokens? store order := by
  rw [evalTokens?, List.foldlM_map]
  rfl

/-- The places of the tokens do not matter. -/
theorem eval?_bare : eval? store (ts.map Token.bare) = eval? store ts := by
  unfold eval?
  rw [evalOrder_bare]
  cases evalOrder ts with
  | error _ => rfl
  | ok order => exact evalTokens?_bare order

/-- A single operand is evaluated as it is. -/
theorem evalOrder_operand {t : Token} (h : t.kind.isOperand = true) : evalOrder [t] = .ok [t] :=
  evalOrder_eq_ok.mpr ⟨_, [t], foldlM_read_cons.mpr ⟨_, .operand h rfl, rfl⟩, rfl, rfl, rfl⟩

/-- A sign comes behind its operand. -/
theorem evalOrder_sign {m n : Token} (hm : m.kind = .unaryOp) (htext : m.text ≠ "(")
    (hn : n.kind.isOperand = true) :
    evalOrder [m, n] = .ok [n, m] := by
  have hrun : [m, n].foldlM read Yard.empty = .ok ⟨[n], [m], false⟩ := by
    refine foldlM_read_cons.mpr ⟨_, .wait (by rw [hm]; rfl) rfl (.inl hm), ?_⟩
    exact foldlM_read_cons.mpr ⟨_, .operand hn rfl, rfl⟩
  exact evalOrder_eq_ok.mpr ⟨_, [m, n], hrun, rfl, by simp [releaseAll?, htext], rfl⟩

/-- An operator comes behind its operands. -/
theorem evalOrder_infix {x o y : Token} {level : Nat} (hx : x.kind.isOperand = true)
    (hy : y.kind.isOperand = true) (ho : o.kind = .binaryOp)
    (hlevel : binaryLevel? o.text = some level) : evalOrder [x, o, y] = .ok [x, y, o] := by
  have hparen : o.text ≠ "(" ∧ o.text ≠ ")" := by
    constructor <;> intro hc <;> rw [hc] at hlevel <;> cases hlevel
  have hrun : [x, o, y].foldlM read Yard.empty = .ok ⟨[y, x], [o], false⟩ := by
    refine foldlM_read_cons.mpr ⟨_, .operand hx rfl, ?_⟩
    refine foldlM_read_cons.mpr ⟨_, .binary ho hparen hlevel rfl, ?_⟩
    exact foldlM_read_cons.mpr ⟨_, .operand hy rfl, rfl⟩
  exact evalOrder_eq_ok.mpr ⟨_, [o, y, x], hrun, rfl, by simp [releaseAll?, hparen.1], rfl⟩

theorem eval?_of_literalNumber? {n : Int} (h : Token.literalNumber? ts = some n) :
    eval? store ts = some n := by
  rcases ts with _ | ⟨t, _ | ⟨u, _ | ⟨v, ts⟩⟩⟩
  · cases h
  · simp only [Token.literalNumber?] at h
    split at h
    · next hkind =>
      rw [eval?, evalOrder_operand (by rw [hkind]; rfl)]
      simp [evalTokens?, evalToken?, hkind, h]
    · cases h
  · simp only [Token.literalNumber?] at h
    split at h
    · next hshape =>
      simp only [Token.is, Bool.and_eq_true, beq_iff_eq, decide_eq_true_eq] at hshape
      obtain ⟨⟨hminus, htext⟩, hkind⟩ := hshape
      obtain ⟨k, hk, rfl⟩ := Option.map_eq_some_iff.mp h
      rw [eval?, evalOrder_sign hminus (by rw [htext]; decide) (by rw [hkind]; rfl)]
      simp only [evalTokens?, evalToken?, List.foldlM_cons, List.foldlM_nil, hkind, hminus,
        htext, hk]
      rfl
    · cases h
  · cases h

def operand? (store : String → Int) (t : Token) : Option Int :=
  if t.kind = .var then some (store t.value) else if t.kind = .number then Text.numeral64? t.text
  else none

theorem eval?_infix {x o y : Token} {level : Nat} {a b n : Int} (hx : operand? store x = some a)
    (hy : operand? store y = some b) (ho : o.kind = .binaryOp)
    (hlevel : binaryLevel? o.text = some level) (hn : combine? o.text a b = some n) :
    eval? store [x, o, y] = some n := by
  have hoperand : ∀ {t : Token} {k : Int}, operand? store t = some k → t.kind.isOperand = true ∧
      ∀ stack, evalToken? store stack t = some (k :: stack) := by
    intro t k ht
    unfold operand? at ht
    split at ht
    · next hkind =>
      cases ht
      simp [hkind, TokenKind.isOperand, evalToken?]
    · split at ht
      · next hkind => simp [hkind, TokenKind.isOperand, evalToken?, ht]
      · cases ht
  obtain ⟨hxo, hxe⟩ := hoperand hx
  obtain ⟨hyo, hye⟩ := hoperand hy
  have hoe : evalToken? store [b, a] o = some [n] := by simp [evalToken?, ho, hn]
  rw [eval?, evalOrder_infix hxo hyo ho hlevel]
  simp [evalTokens?, hxe, hye, hoe]

end Expression

/-! ## Commands -/

namespace Statement

def eval? (s : Statement) (store : String → Int) : Option Int :=
  (s.parameters.find? fun p => p.kind == .expression).bind fun p => Expression.eval? store p.tokens

structure Assigns (s : Statement) (name : String) (value : (String → Int) → Int) : Prop where
  form : s.form = FormId.expression
  assigned : s.assigned?.map Token.value = some name
  eval : ∀ store, s.eval? store = some (value store)

structure Tests (s : Statement) (test : (String → Int) → Bool) : Prop where
  form : s.form = FormId.expression
  conditional : s.conditional = .whileTrue
  eval : ∀ store, s.eval? store = some (if test store then 1 else 0)

variable {u : Statement} {ms : List Mark} {v : Token} {xs : List Token}

/-- The parameters of a command that sets or tests an expression. -/
theorem Tells.parameters_eq {marks : List Mark} {c : Conditional} {places : List Nat} {k : Nat}
    (front : List Token)
    (h : u.Tells ⟨marks, FormId.expression, c,
      [⟨.retVarIf, places⟩, ⟨.expression, List.range' k ms.length⟩]⟩ (front ++ xs))
        (hfront : front.length = k) (hlength : ms.length = xs.length) :
    ∃ p q, u.parameters = [p, q] ∧ p.kind = .retVarIf ∧ q.kind = .expression ∧
      p.tokens.map Token.bare = (places.map fun i => (front ++ xs).getD i default) ∧
      q.tokens.map Token.bare = xs := by
  obtain ⟨p, l, hparameters, hp, hl⟩ := List.map_eq_cons_iff.mp h.parameters
  obtain ⟨q, rfl, hq⟩ := List.map_eq_singleton_iff.mp hl
  have hxs : (List.range' k ms.length).map (fun i => (front ++ xs).getD i default) = xs := by
    rw [map_getD_range' (by rw [List.length_append, hfront, hlength]), ← hfront, List.drop_left]
  refine ⟨p, q, hparameters, congrArg Parameter.kind hp, congrArg Parameter.kind hq,
    congrArg Parameter.tokens hp, ?_⟩
  exact (congrArg Parameter.tokens hq).trans hxs

theorem Tells.assigns (h : u.Tells (.assignment ms) (v.bare :: (Mark.op "=").token :: xs))
    (hlength : ms.length = xs.length) {value : (String → Int) → Int}
    (heval : ∀ store, Expression.eval? store xs = some (value store)) :
    u.Assigns v.value value := by
  obtain ⟨p, q, hparameters, hp, hq, hslot, hxs⟩ :=
    Tells.parameters_eq [v.bare, (Mark.op "=").token] h rfl hlength
  have hconditional : u.conditional = .assign := h.conditional
  refine ⟨h.form, ?_, fun store => ?_⟩
  · obtain ⟨t, l, htokens, ht, -⟩ := List.map_eq_cons_iff.mp hslot
    have hreturn : u.returnSlot? = some p := by
      simp [returnSlot?, hparameters, hp, ParamKind.isReturnSlot]
    have hvalue : t.bare.value = v.bare.value := congrArg Token.value ht
    simpa only [assigned?, hconditional, hreturn, htokens, if_true, Option.bind_some,
      List.head?_cons, Option.map_some, Option.some.injEq, Token.value_bare] using hvalue
  · have hfind : u.parameters.find? (fun p => p.kind == .expression) = some q := by
      simp [hparameters, hp, hq]
    rw [eval?, hfind, Option.bind_some, ← Expression.eval?_bare, hxs, heval]

theorem Tells.tests (h : u.Tells (.test ms) ((Mark.mk .keyword "while").token :: xs))
    (hlength : ms.length = xs.length) {test : (String → Int) → Bool}
    (heval : ∀ store, Expression.eval? store xs = some (if test store then 1 else 0)) :
    u.Tests test := by
  obtain ⟨p, q, hparameters, hp, hq, -, hxs⟩ :=
    Tells.parameters_eq [(Mark.mk .keyword "while").token] h rfl hlength
  have hconditional : u.conditional = .whileTrue := h.conditional
  refine ⟨h.form, hconditional, fun store => ?_⟩
  have hfind : u.parameters.find? (fun p => p.kind == .expression) = some q := by
    simp [hparameters, hp, hq]
  rw [eval?, hfind, Option.bind_some, ← Expression.eval?_bare, hxs, heval]

end Statement

/-- The meaning of commands over stores of numbers. -/
def Tree.arithmetic (t : Tree) : Meaning NodeId (String → Int) where
  act id store :=
    let s := (t.node id).statement
    if s.form = FormId.expression then
      match s.assigned?, s.eval? store with
      | some v, some n => Function.update store v.value n
      | _, _ => store
    else store
  answer id store :=
    let s := (t.node id).statement
    s.form = FormId.expression && (s.eval? store).any (· ≠ 0)

/-- A command writes no other variable than the one it assigns to. -/
theorem Tree.arithmetic_act_of_ne {t : Tree} {id : NodeId} {name : String}
    (h : ∀ v, (t.node id).statement.assigned? = some v → v.value ≠ name) (store : String → Int) :
    t.arithmetic.act id store name = store name := by
  simp only [arithmetic]
  split
  · cases hv : (t.node id).statement.assigned? with
    | none => rfl
    | some v =>
      cases (t.node id).statement.eval? store with
      | none => rfl
      | some n => exact Function.update_of_ne (h v hv).symm n store
  · rfl

def Meaning.Computes {σ : Type u} (m : Meaning NodeId σ) (view : σ → String → Int) (t : Tree)
    (id : NodeId) : Prop :=
  ∀ s, view (m.act id s) = t.arithmetic.act id (view s) ∧
    m.answer id s = t.arithmetic.answer id (view s)

section

variable {σ : Type u} {m : Meaning NodeId σ} {view : σ → String → Int} {t : Tree} {id : NodeId}
  {name : String}

/-- An assignment changes the one variable. -/
theorem Meaning.Computes.act_of_assigns (h : m.Computes view t id) {value : (String → Int) → Int}
    (hid : (t.node id).statement.Assigns name value) (s : σ) :
    view (m.act id s) = Function.update (view s) name (value (view s)) := by
  obtain ⟨v, hv, hname⟩ := Option.map_eq_some_iff.mp hid.assigned
  rw [(h s).1]
  simp [Tree.arithmetic, hid.form, hv, hid.eval, hname]

/-- A test changes nothing and answers with its condition. -/
theorem Meaning.Computes.of_tests (h : m.Computes view t id) {test : (String → Int) → Bool}
    (hid : (t.node id).statement.Tests test) (s : σ) :
    view (m.act id s) = view s ∧ m.answer id s = test (view s) := by
  rw [(h s).1, (h s).2]
  refine ⟨?_, ?_⟩
  · simp [Tree.arithmetic, Statement.assigned?, hid.conditional]
  · cases htest : test (view s) <;> simp [Tree.arithmetic, hid.form, hid.eval, htest]

end

end GameScript
