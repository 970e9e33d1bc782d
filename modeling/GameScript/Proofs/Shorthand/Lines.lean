import GameScript.Proofs.Fallible
import GameScript.Proofs.Statement.Reading
import GameScript.Proofs.Token.Shape
import GameScript.Shorthand.Expand

/-!
# The lines of an expansion

The lines that stand for a shorthand are plain commands, and the head of a loop opens a loop. This
holds for every shorthand, because the parameters of a shorthand are values: no value starts like a
keyword.

* `Statement.plan_wellFormed`: how the lines of an expansion start.
* `Generated.read_wellFormed`: the statements that stand for a shorthand are plain commands and
  loops.
-/

namespace GameScript

/-! ## How lines start -/

/-- The line starts with a token that is no keyword and no control word. -/
def PlainLine (line : String) : Prop :=
  Token.comment? (Token.tokenize line false) = none ∧
    ∃ t ts, Token.significant (Token.tokenize line false) = t :: ts ∧ t.kind ≠ .keyword ∧
      t.text ∉ controlWords

def LoopLine (line : String) : Prop :=
  Token.comment? (Token.tokenize line false) = none ∧
    ∃ t ts, Token.significant (Token.tokenize line false) = t :: ts ∧ t.is .keyword "while" = true

/-- A control word starts with a letter. -/
theorem notMem_controlWords {text : String} {c : Char} (h : text.toList.head? = some c)
    (hc : c.isAlpha = false) : text ∉ controlWords := by
  have hletters : ∀ w ∈ controlWords, w.toList.head?.any Char.isAlpha = true := by decide
  intro hmem
  have hletter := hletters text hmem
  rw [h, Option.any_some, hc] at hletter
  cases hletter

theorem plainLine_of_mark {line : String} {c : Char} {cs : List Char} (hcs : line.toList = c :: cs)
    (halpha : c.isAlpha = false) (hbare : Token.startsBare (c :: cs) = true) : PlainLine line := by
  obtain ⟨t, ts, hts, hkind, hhead⟩ := Token.first_of_mark hcs halpha hbare
  exact ⟨Token.comment?_of_startsBare (hcs ▸ hbare), t, ts, hts, hkind,
    notMem_controlWords hhead halpha⟩

/-- The line starts with a word that is no keyword. -/
theorem plainLine_of_lexeme {line : String} {c : Char} {cs : List Char} {kind : TokenKind} {n : Nat}
    (hcs : line.toList = c :: cs) (hbare : Token.startsBare (c :: cs) = true)
    (hlexeme : Token.lexeme false (c :: cs) = (kind, n)) (hkind : kind = .null ∨ kind = .text)
    (hword : String.ofList (c :: cs.take (n - 1)) ∉ controlWords) : PlainLine line := by
  have hsignificant : kind.isSignificant = true := by rcases hkind with rfl | rfl <;> rfl
  obtain ⟨ts, hts⟩ := Token.significant_of_startsBare hcs (hcs ▸ hbare) hlexeme hsignificant
  refine ⟨Token.comment?_of_startsBare (hcs ▸ hbare), _, ts, hts, ?_, hword⟩
  rcases hkind with rfl | rfl <;> simp [Token.ofChars]

theorem plainLine_dec (rest : String) : PlainLine ("dec " ++ rest) := by
  have hcs : ("dec " ++ rest).toList = 'd' :: 'e' :: 'c' :: ' ' :: rest.toList := by simp
  refine plainLine_of_lexeme hcs rfl rfl (.inr rfl) ?_
  change String.ofList ['d', 'e', 'c'] ∉ controlWords
  decide

theorem loopLine_while (rest : String) : LoopLine ("while " ++ rest) := by
  have hcs : ("while " ++ rest).toList = 'w' :: 'h' :: 'i' :: 'l' :: 'e' :: ' ' :: rest.toList := by
    simp
  have hlexeme : Token.lexeme false ('w' :: 'h' :: 'i' :: 'l' :: 'e' :: ' ' :: rest.toList) =
      (.keyword, 5) := rfl
  obtain ⟨ts, hts⟩ := Token.significant_of_startsBare hcs (hcs ▸ rfl) hlexeme rfl
  refine ⟨Token.comment?_of_startsBare (hcs ▸ rfl), _, ts, hts, ?_⟩
  change (Token.ofChars .keyword 0 ['w', 'h', 'i', 'l', 'e']).is .keyword "while" = true
  decide

/-! ## Lines that start with a value -/

structure Parameter.IsValue (p : Parameter) : Prop where
  value : Token.IsValue p.tokens
  spelled : ∀ t ∈ p.tokens, ∃ b, Token.Spelled b t.kind t.text.toList

theorem digit_bare {c : Char} (h : c.isDigit = true) (cs : List Char) :
    c.isAlpha = false ∧ Token.startsBare (c :: cs) = true := by
  have hletter := Token.not_isAlpha_of_isDigit h
  simp only [Char.isDigit, Bool.and_eq_true, decide_eq_true_eq, ge_iff_le,
    UInt32.le_iff_toNat_le] at h
  have hrange : 48 ≤ c.val.toNat ∧ c.val.toNat ≤ 57 := h
  have hne : ∀ d : Char, d.val.toNat < 48 → c ≠ d := by
    rintro d hd rfl
    omega
  refine ⟨hletter, ?_⟩
  simp [Token.startsBare, Token.isGap, hne ' ' (by decide), hne '\t' (by decide),
    hne '\r' (by decide), hne '*' (by decide)]

/-- Lines that start with this text, and then a blank or a bracket, are plain. -/
def StartsPlain (text : String) : Prop :=
  ∀ {rest : String} {d : Char} {cs : List Char}, rest.toList = d :: cs → d = ' ' ∨ d = '[' →
    PlainLine (text ++ rest)

theorem startsPlain_dollar (name : String) : StartsPlain ("$" ++ name) := by
  intro rest d cs _ _
  have hcs : ("$" ++ name ++ rest).toList = '$' :: (name.toList ++ rest.toList) := by simp
  exact plainLine_of_mark hcs rfl rfl

/-- A line that starts with a value is plain. -/
theorem Parameter.IsValue.startsPlain {p : Parameter} (h : p.IsValue) : StartsPlain p.text := by
  intro rest d cs hrest hd
  have hmark : ∀ {c : Char} {text : List Char}, p.text.toList = c :: text → c.isAlpha = false →
      Token.startsBare (c :: (text ++ rest.toList)) = true → PlainLine (p.text ++ rest) :=
    fun hp halpha hbare => plainLine_of_mark (by simp [hp]) halpha hbare
  rcases h.value with ⟨t, ht, hoperand⟩ | ⟨m, n, hmn, hm, -⟩
  · have htext : p.text = t.text := by simp [Parameter.text, ht, Token.join]
    obtain ⟨b, hspelled⟩ := h.spelled t (by simp [ht])
    have hshaped := hspelled.shaped rfl rfl
    rw [Token.Shaped, ← htext] at hshaped
    cases hkind : t.kind <;> simp only [hkind, TokenKind.isOperand,
      Bool.false_eq_true] at hoperand hshaped
    case number =>
      obtain ⟨c, text, hc, hdigit⟩ := hshaped
      exact hmark hc (digit_bare hdigit []).1 (digit_bare hdigit _).2
    case null =>
      have hcs : (p.text ++ rest).toList = 'n' :: 'u' :: 'l' :: 'l' :: d :: cs := by
        simp [hshaped, hrest]
      have hlexeme : Token.lexeme false ('n' :: 'u' :: 'l' :: 'l' :: d :: cs) = (.null, 4) := by
        rcases hd with rfl | rfl <;> rfl
      refine plainLine_of_lexeme hcs rfl hlexeme (.inl rfl) ?_
      change String.ofList ['n', 'u', 'l', 'l'] ∉ controlWords
      decide
    all_goals
      obtain ⟨text, hc⟩ := hshaped
      exact hmark hc rfl rfl
  · have htext : p.text.toList = '-' :: n.text.toList := by
      simp only [Token.is, Bool.and_eq_true, beq_iff_eq] at hm
      simp [Parameter.text, hmn, Token.join, Token.spacing, Token.hugsRight, hm.1, hm.2]
    exact hmark htext rfl rfl

/-! ## The parameters of shorthands -/

/-- The parameters that lines of an expansion start with are values. -/
structure Statement.TakesValues (s : Statement) : Prop where
  dim : s.form = FormId.dim → ∀ p, s.parameters.head? = some p → p.IsValue
  loop : s.form.isLoopShorthand = true → ∀ p ∈ s.parameters, p.IsValue

namespace Statement

variable {g : Grammar} {v : Version} {r : Recognition}

/-- A parameter of a kind that takes single values. -/
theorem isValue_of_kind {line : String}
    (hlawful : r.entry.Lawful)
    (h : g.recognise? v (Token.significant (Token.tokenize line false)) = some r) {p : Parameter}
    (hp : p ∈ r.fit.parameters r.entry.form) (hkind : p.kind = .var ∨ p.kind = .number) :
    p.IsValue := by
  obtain ⟨htakes, hsubset⟩ := Recognition.takes h hlawful hp
  refine ⟨?_, fun t ht => Token.significant_spelled line t (hsubset ht)⟩
  rcases hkind with hkind | hkind <;> rw [hkind] at htakes <;> exact htakes

theorem ofRecognition_takesValues {line : String} (hg : g.Lawful)
    (h : g.recognise? v (Token.significant (Token.tokenize line false)) = some r) (number : Nat)
    (commented : Bool) : (ofRecognition number line commented r).TakesValues := by
  have hlawful := hg.lawful _ (Recognition.of_recognise? h).1
  refine ⟨fun hdim p hp => ?_, fun hloop p hp => ?_⟩
  · have hkind := hlawful.dim hdim
    obtain ⟨us, hus⟩ := Recognition.bound h (hlawful.shown 0 (Entry.kindAt?_lt hkind))
    have hfirst : p = ⟨.var, us⟩ := by
      rw [List.head?_eq_getElem?] at hp
      exact Option.some.inj (hp.symm.trans (Fit.parameters_getElem? hkind hus))
    exact isValue_of_kind hlawful h (List.mem_of_mem_head? hp) (.inl (by rw [hfirst]))
  · have hmem : p ∈ r.fit.parameters r.entry.form := hp
    simp only [Fit.parameters, List.mem_map] at hmem
    obtain ⟨q, hq, rfl⟩ := hmem
    exact isValue_of_kind hlawful h hp (hlawful.loop hloop q.1 (List.of_mem_zip hq).1)

/-- The shorthands of a script have values for parameters. -/
theorem read_takesValues (hg : g.Lawful) (v : Version) (number : Nat) (line : String) :
    (read g v number line).statement.TakesValues := by
  have hother : ∀ s : Statement, s.form.isShorthand = false → s.TakesValues := by
    intro s hs
    simp only [FormId.isShorthand, Bool.or_eq_false_iff, beq_eq_false_iff_ne] at hs
    exact ⟨fun h => absurd h hs.1, fun h => by rw [hs.2] at h; cases h⟩
  rcases read_cases g v number line with h | h | h | ⟨commented, r, hr, h⟩ <;> rw [h]
  · exact hother _ rfl
  · exact hother _ rfl
  · exact hother _ rfl
  · exact ofRecognition_takesValues hg hr number commented

/-- A shorthand that is not commented out is a loop or a `dim`. -/
theorem ofRecognition_part {ts : List Token} (hg : g.Lawful)
    (h : g.recognise? v ts = some r) (number : Nat) (line : String)
    (hid : r.entry.form.id.isShorthand = true) :
    (ofRecognition number line false r).part = if r.entry.form.id.isLoopShorthand then .loop
      else .shorthand := by
  by_cases hloop : r.entry.form.id.isLoopShorthand = true
  · have hrole : (ofRecognition number line false r).role = .loop := by
      simp only [FormId.isLoopShorthand, Bool.or_eq_true, beq_iff_eq] at hloop
      rcases hloop with ((hloop | hloop) | hloop) | hloop <;>
        simp only [ofRecognition, hloop] <;> rfl
    rw [part, hrole, if_pos hloop]
  · have hdim : r.entry.form.id = FormId.dim := by simpa [FormId.isShorthand, hloop] using hid
    have hlawful := hg.lawful _ (Recognition.of_recognise? h).1
    have hslot : (ofRecognition number line false r).returnSlot? = none :=
      Recognition.returnSlot?_of_hasMeaning number line hlawful (by rw [hdim]; rfl)
    have hconditional : r.fit.conditional = .discard := by
      by_contra hne
      obtain ⟨p, hp, -⟩ := Recognition.returnSlot?_of_conditional number line h hlawful hne
      rw [hslot] at hp
      cases hp
    have hrole : (ofRecognition number line false r).role = .plain := by
      simp only [ofRecognition, hdim, hconditional]
      rfl
    have hshorthand : (ofRecognition number line false r).form.isShorthand = true := hid
    rw [part, hrole, if_neg hloop]
    simp only [hshorthand, if_true]

theorem read_part_of_isShorthand (hg : g.Lawful) (v : Version) (number : Nat) (line : String)
    (hcommented : (read g v number line).statement.commented = false)
    (hform : (read g v number line).statement.form.isShorthand = true) :
    (read g v number line).statement.part =
      if (read g v number line).statement.form.isLoopShorthand then .loop else .shorthand := by
  rcases read_cases g v number line with h | h | h | ⟨commented, r, hr, h⟩ <;>
    rw [h] at hcommented hform ⊢
  · cases hform
  · cases hform
  · cases hform
  · obtain rfl : commented = false := hcommented
    exact ofRecognition_part hg hr number line hform

end Statement

/-! ## Expansions -/

/-- The lines of an expansion are plain, and its head opens a loop. -/
structure Expansion.WellFormed (x : Expansion) : Prop where
  before : ∀ line ∈ x.before, PlainLine line
  head : ∀ line, x.head = some line → LoopLine line
  round : ∀ line ∈ x.round, PlainLine line

namespace Expansion

theorem dim_wellFormed {array : String} (harray : StartsPlain array) (items : List (List Token)) :
    (dim array items).WellFormed := by
  refine ⟨?_, by simp [dim], by simp [dim]⟩
  intro line hline
  simp only [dim, List.mem_cons, List.mem_map, Prod.exists] at hline
  rcases hline with rfl | ⟨item, index, _, rfl⟩
  · rw [String.append_assoc]
    exact harray (by simp; rfl) (.inl rfl)
  · simp only [String.append_assoc]
    exact harray (by simp; rfl) (.inr rfl)

theorem counted_wellFormed {counter iterator : String} (hcounter : StartsPlain counter)
    (hiterator : StartsPlain iterator) (initial limit : Parameter) (step : Step) :
    (counted counter initial limit step iterator).WellFormed := by
  refine ⟨?_, ?_, ?_⟩
  · intro line hline
    simp only [counted, List.mem_cons, List.not_mem_nil, or_false] at hline
    rcases hline with rfl | rfl
    · rw [String.append_assoc]
      exact hiterator (by simp; rfl) (.inl rfl)
    · rw [String.append_assoc]
      exact hcounter (by simp; rfl) (.inl rfl)
  · intro line hline
    simp only [counted, Option.some.injEq, String.append_assoc] at hline
    rw [← hline]
    exact loopLine_while _
  · intro line hline
    simp only [counted, List.mem_singleton, String.append_assoc] at hline
    rw [hline]
    exact hcounter (by simp; rfl) (.inl rfl)

theorem each_wellFormed {item counter : String} (hitem : StartsPlain item)
    (hcounter : StartsPlain counter) (array : String) : (each item array counter).WellFormed := by
  refine ⟨?_, ?_, ?_⟩
  · intro line hline
    simp only [each, List.mem_singleton, String.append_assoc] at hline
    rw [hline]
    exact hcounter (by simp; rfl) (.inl rfl)
  · intro line hline
    simp only [each, Option.some.injEq] at hline
    rw [← hline]
    exact loopLine_while _
  · intro line hline
    simp only [each, List.mem_cons, List.not_mem_nil, or_false, String.append_assoc] at hline
    rcases hline with rfl | rfl
    · exact plainLine_dec _
    · exact hitem (by simp; rfl) (.inl rfl)

end Expansion

/-- What a shorthand is expanded to, and the names that are left. -/
inductive Statement.Plans (s : Statement) (names : NameSupply) : Expansion → NameSupply → Prop
  | dim {array : Parameter} {rest : List Parameter} (hform : s.form = FormId.dim)
      (hparameters : s.parameters = array :: rest) :
      Plans s names (.dim array.text ((rest.head?.map (·.items)).getD [])) names
  | counted {counter initial limit : Parameter} {rest : List Parameter} {step : Expansion.Step}
      (hform : s.form = FormId.forLoop ∨ s.form = FormId.forLoopStep)
      (hparameters : s.parameters = counter :: initial :: limit :: rest)
      (hstep : step = .one ∨ ∃ p ∈ s.parameters, step = .of p) (hzero : step.value ≠ some 0) :
      Plans s names (.counted counter.text initial limit step names.freshVariable.1) names.fresh.2
  | each {item array : Parameter} {rest : List Parameter} (hform : s.form = FormId.forEach)
      (hparameters : s.parameters = item :: array :: rest) :
      Plans s names (.each item.text array.text names.freshVariable.1) names.fresh.2
  | eachCounter {item array counter : Parameter} {rest : List Parameter} (hform : s.form =
      FormId.forEachCounter)
      (hparameters : s.parameters = item :: array :: counter :: rest) :
      Plans s names (.each item.text array.text counter.text) names

variable {s : Statement} {names names' : NameSupply} {x : Expansion}

theorem Statement.plans_of_plan (h : s.plan names = .ok (x, names')) : s.Plans names x names' := by
  have hcounted : ∀ {counter initial limit : Parameter} {step : Expansion.Step} {rest : List
      Parameter},
      s.form = FormId.forLoop ∨ s.form = FormId.forLoopStep →
      s.parameters = counter :: initial :: limit :: rest →
      (step = .one ∨ ∃ p ∈ s.parameters, step = .of p) →
      planCounted names counter initial limit step = .ok (x, names') → s.Plans names x names' := by
    intro counter initial limit step rest hform hparameters hstep h
    simp only [planCounted] at h
    split at h
    · cases h
    · next hzero =>
      cases h
      exact .counted hform hparameters hstep hzero
  unfold plan at h
  dsimp only at h
  split at h
  · next hform =>
    split at h
    · cases h
    · next hparameters =>
      cases h
      exact .dim hform hparameters
  · split at h
    · next hform =>
      split at h
      · next hparameters => exact hcounted (.inl hform) hparameters (.inl rfl) h
      · cases h
    · split at h
      · next hform =>
        split at h
        · next hparameters =>
          exact hcounted (.inr hform) hparameters (.inr ⟨_, by simp [hparameters], rfl⟩) h
        · cases h
      · split at h
        · next hform =>
          split at h
          · next hparameters =>
            cases h
            exact .each hform hparameters
          · cases h
        · split at h
          · next hform =>
            split at h
            · next hparameters =>
              cases h
              exact .eachCounter hform hparameters
            · cases h
          · cases h

/-- A shorthand draws at most one name. -/
theorem Statement.Plans.names_eq (h : s.Plans names x names') :
    names' = names ∨ names' = names.fresh.2 := by
  cases h with
  | dim _ _ | eachCounter _ _ => exact .inl rfl
  | counted _ _ _ _ | each _ _ => exact .inr rfl

/-- Only loops have a head. -/
theorem Statement.Plans.isLoopShorthand_eq (h : s.Plans names x names') :
    s.form.isLoopShorthand = x.head.isSome := by
  cases h with
  | counted hform _ _ _ => rcases hform with hform | hform <;> rw [hform] <;> rfl
  | dim hform _ | each hform _ | eachCounter hform _ =>
    rw [hform]
    rfl

/-- The lines that stand for a shorthand are plain, and the head opens a loop. -/
theorem Statement.plan_wellFormed (hs : s.TakesValues) (h : s.plan names = .ok (x, names')) :
    x.WellFormed ∧ x.head.isSome = s.form.isLoopShorthand := by
  have hplans := plans_of_plan h
  have hloop := hplans.isLoopShorthand_eq
  refine ⟨?_, hloop.symm⟩
  cases hplans with
  | dim hform hparameters =>
    exact Expansion.dim_wellFormed (hs.dim hform _ (by simp [hparameters])).startsPlain _
  | counted _ hparameters _ _ =>
    exact Expansion.counted_wellFormed (hs.loop hloop _ (by simp [hparameters])).startsPlain
      (startsPlain_dollar _) _ _ _
  | each _ hparameters =>
    exact Expansion.each_wellFormed (hs.loop hloop _ (by simp [hparameters])).startsPlain
      (startsPlain_dollar _) _
  | eachCounter _ hparameters =>
    exact Expansion.each_wellFormed (hs.loop hloop _ (by simp [hparameters])).startsPlain
      (hs.loop hloop _ (by simp [hparameters])).startsPlain _

/-! ## The statements of an expansion -/

def Statement.IsRead (e : Setting) (s : Statement) : Prop :=
  ∃ number line, s = (Statement.read e.grammar e.version number line).statement

structure Statement.Performs (e : Setting) (role : Role) (s : Statement) :
    Prop extends s.Starts role where
  isRead : s.IsRead e

/-- The statements that stand for a shorthand are plain commands, and the head is a loop. -/
structure Generated.WellFormed (e : Setting) (g : Generated) : Prop where
  before : ∀ s ∈ g.before, s.Performs e .plain
  head : ∀ s, g.head = some s → s.Performs e .loop
  round : ∀ s ∈ g.round, s.Performs e .plain

namespace Generated

variable {e : Setting} {number : Nat}

variable {line : String} {s : Statement}

theorem readLine_eq_ok (h : readLine e number line = .ok s) :
    s = (Statement.read e.grammar e.version number line).statement ∧ s.isRecognised = true := by
  unfold readLine at h
  dsimp only at h
  split at h
  · next hread =>
    cases h
    rw [Bool.and_eq_true] at hread
    exact ⟨rfl, hread.2⟩
  · cases h

theorem readLine_performs {role : Role}
    (hline : (Statement.read e.grammar e.version number line).statement.isRecognised = true →
      (Statement.read e.grammar e.version number line).statement.Starts role)
    (h : readLine e number line = .ok s) : s.Performs e role := by
  obtain ⟨rfl, hrecognised⟩ := readLine_eq_ok h
  exact ⟨hline hrecognised, number, line, rfl⟩

theorem readLine_of_plainLine (hg : e.grammar.Lawful) (hline : PlainLine line)
    (h : readLine e number line = .ok s) : s.Performs e .plain := by
  obtain ⟨hcomment, t, ts, hts, hkind, htext⟩ := hline
  exact readLine_performs (Statement.role_of_first hg hts hcomment hkind htext) h

theorem readLine_of_loopLine (hg : e.grammar.Lawful) (hline : LoopLine line)
    (h : readLine e number line = .ok s) : s.Performs e .loop := by
  obtain ⟨hcomment, t, ts, hts, ht⟩ := hline
  exact readLine_performs (Statement.role_of_while hg hts hcomment ht) h

theorem mapM_readLine {lines : List String} {l : List Statement} :
    lines.mapM (readLine e number) = .ok l ↔
      List.Forall₂ (fun line s => readLine e number line = .ok s) lines l := by
  induction lines generalizing l with
  | nil =>
    rw [List.mapM_nil, List.forall₂_nil_left_iff]
    exact ⟨fun h => (Except.ok.inj h).symm, fun h => h ▸ rfl⟩
  | cons line rest ih =>
    rw [List.mapM_cons, List.forall₂_cons_left_iff]
    simp only [bind_eq_ok_iff, ih, pure, Except.pure, Except.ok.injEq]
    constructor
    · rintro ⟨s, hline, l', hrest, rfl⟩
      exact ⟨s, l', hline, hrest, rfl⟩
    · rintro ⟨s, l', hline, hrest, rfl⟩
      exact ⟨s, hline, l', hrest, rfl⟩

structure IsRead (e : Setting) (number : Nat) (x : Expansion) (g : Generated) : Prop where
  before : List.Forall₂ (fun line s => readLine e number line = .ok s) x.before g.before
  head : List.Forall₂ (fun line s => readLine e number line = .ok s) x.head.toList g.head.toList
  round : List.Forall₂ (fun line s => readLine e number line = .ok s) x.round g.round

theorem isRead_iff {x : Expansion} {g : Generated} :
    Generated.read e number x = .ok g ↔ g.IsRead e number x := by
  obtain ⟨before, head, round⟩ := x
  obtain ⟨before', head', round'⟩ := g
  unfold Generated.read
  cases head with
  | none =>
    simp only [bind_eq_ok_iff, mapM_readLine, pure, Except.pure, Except.ok.injEq,
      Generated.mk.injEq]
    constructor
    · rintro ⟨_, hbefore, _, rfl, _, hround, rfl, rfl, rfl⟩
      exact ⟨hbefore, .nil, hround⟩
    · rintro ⟨hbefore, hhead, hround⟩
      have hnone : head' = none := by simpa using hhead
      exact ⟨before', hbefore, none, rfl, round', hround, rfl, hnone.symm, rfl⟩
  | some line =>
    simp only [bind_eq_ok_iff, map_eq_ok_iff, mapM_readLine, pure, Except.pure, Except.ok.injEq,
      Generated.mk.injEq]
    constructor
    · rintro ⟨_, hbefore, _, ⟨s, hline, rfl⟩, _, hround, rfl, rfl, rfl⟩
      exact ⟨hbefore, .cons hline .nil, hround⟩
    · rintro ⟨hbefore, hhead, hround⟩
      cases head' with
      | none => cases hhead
      | some s =>
        have hline := (List.forall₂_cons.mp hhead).1
        exact ⟨before', hbefore, some s, ⟨s, hline, rfl⟩, round', hround, rfl, rfl, rfl⟩

/-- What holds for every statement that a line is read as holds for the statements of lines. -/
theorem forall_of_readLine {P : Statement → Prop} {lines : List String} {l : List Statement}
    (h : List.Forall₂ (fun line s => readLine e number line = .ok s) lines l)
    (hP : ∀ line ∈ lines, ∀ s, readLine e number line = .ok s → P s) : ∀ s ∈ l, P s := by
  induction h with
  | nil => simp
  | cons hline _ ih =>
    intro s hs
    rcases List.mem_cons.mp hs with rfl | hs
    · exact hP _ (by simp) _ hline
    · exact ih (fun line hline => hP line (by simp [hline])) s hs

/-- The statements that are read from the lines of an expansion, and whether one of them is a
head. -/
theorem IsRead.wellFormed (hg : e.grammar.Lawful) {x : Expansion} {g : Generated}
    (hx : x.WellFormed) (h : g.IsRead e number x) :
    g.WellFormed e ∧ g.head.isSome = x.head.isSome := by
  refine ⟨⟨?_, ?_, ?_⟩, ?_⟩
  · exact forall_of_readLine h.before fun line hline s =>
      readLine_of_plainLine hg (hx.before line hline)
  · intro s hs
    refine forall_of_readLine h.head (fun line hline s => readLine_of_loopLine hg (hx.head line ?_))
      s (by simp [hs])
    simpa using hline
  · exact forall_of_readLine h.round fun line hline s =>
      readLine_of_plainLine hg (hx.round line hline)
  · have hlength := h.head.length_eq
    cases hx' : x.head <;> cases hg' : g.head <;> simp_all

end Generated

end GameScript
