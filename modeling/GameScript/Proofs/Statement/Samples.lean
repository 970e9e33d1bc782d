import GameScript.Proofs.Statement.Lawful
import Mathlib.Data.List.Forall2

/-!
# Sample lines

Which command a line is depends on the shape of the line only (`Grammar.recognise?_map`). So it is
enough to recognise one line of each shape. A shape is a list of marks; `samples` lists the shapes
of the lines that stand for shorthands, with the commands that they are, and `recognise?_of_sample`
says that every line of one of these shapes is that command.
-/

namespace GameScript

/-! ## Marks -/

/-- A token of a shape. Any operand of the kind will do for an operand; other tokens have their
texts. -/
structure Mark where
  kind : TokenKind
  text : String

namespace Mark

/-- Any operand of a kind. -/
def operand (kind : TokenKind) : Mark where
  kind := kind
  text :=
    match kind with
    | .var => "$v"
    | .number => "0"
    | .string => "'s'"
    | .gameObject => "{o}"
    | .scriptObject => "[o]"
    | _ => "null"

def var : Mark := operand .var

def number : Mark := operand .number

def op (text : String) : Mark := ⟨.binaryOp, text⟩

def minus : Mark := ⟨.unaryOp, "-"⟩

def word (text : String) : Mark := ⟨.text, text⟩

structure Covers (m : Mark) (t : Token) : Prop where
  kind : t.kind = m.kind
  text : m.kind.isOperand = false → t.text = m.text
  value : m.kind.isOperand = true → looksLikeValue t.text = true

/-- A line of the shape, whose tokens are placed at their numbers. -/
def tokens (ms : List Mark) : List Token := ms.zipIdx.map fun p => ⟨p.1.kind, p.2, 0, p.1.text⟩

/-- The marks of operands look like operands, and no mark is a word that announces a value. -/
def isProper (m : Mark) : Bool := (!m.kind.isOperand || looksLikeValue m.text) && m.text != "random"

theorem isProper_iff (m : Mark) :
    m.isProper = true ↔ (m.kind.isOperand = true → looksLikeValue m.text = true) ∧
    m.text ≠ "random" := by
  cases hkind : m.kind.isOperand <;> simp [isProper, hkind]

end Mark

def Token.inLine (ts : List Token) (t : Token) : Token := ts.getD t.start default

section

variable {ms : List Mark} {ts : List Token}

/-- A line of a shape is the line of its marks, with other operands. -/
theorem Mark.tokens_map (h : List.Forall₂ Covers ms ts) :
    (tokens ms).map (Token.inLine ts) = ts := by
  apply List.ext_getElem
  · simp [tokens, h.length_eq]
  · intro i h₁ h₂
    simp [tokens, Token.inLine, h₂]

theorem Mark.renames (h : List.Forall₂ Covers ms ts) (hms : ∀ m ∈ ms, m.isProper = true)
    {words : List String} (hwords : ∀ w ∈ words, looksLikeValue w = false) :
    ∀ t ∈ tokens ms, t.Renames (Token.inLine ts) words := by
  intro t ht
  simp only [tokens, List.mem_map, Prod.exists] at ht
  obtain ⟨m, i, hm, rfl⟩ := ht
  obtain ⟨-, hlt, hget⟩ := List.mem_zipIdx hm
  rw [Nat.zero_add] at hlt
  obtain ⟨hlength, hall⟩ := List.forall₂_iff_get.mp h
  have hcovers : m.Covers (ts.getD i default) := by
    have hi := hall i hlt (hlength ▸ hlt)
    simp only [Nat.sub_zero] at hget
    rw [List.getD_eq_getElem?_getD, List.getElem?_eq_getElem (hlength ▸ hlt), hget]
    exact hi
  refine ⟨hcovers.kind, hcovers.text, fun w hw => ?_⟩
  show (ts.getD i default).text = w ↔ m.text = w
  by_cases hoperand : m.kind.isOperand = true
  · -- Neither operand looks like a word.
    have hproper := hms m (hget ▸ List.getElem_mem _)
    have hmark := ((isProper_iff m).mp hproper).1 hoperand
    have hword := hwords w hw
    constructor
    · rintro rfl
      rw [hcovers.value hoperand] at hword
      cases hword
    · rintro rfl
      rw [hmark] at hword
      cases hword
  · rw [hcovers.text (by simpa using hoperand)]

/-- No token of the line is a word that announces a value. -/
theorem Mark.text_ne_random (h : List.Forall₂ Covers ms ts) (hms : ∀ m ∈ ms, m.isProper = true) :
    (∀ t ∈ tokens ms, t.text ≠ "random") ∧ ∀ t ∈ ts, t.text ≠ "random" := by
  constructor
  · intro t ht
    simp only [tokens, List.mem_map, Prod.exists] at ht
    obtain ⟨m, i, hm, rfl⟩ := ht
    exact ((isProper_iff m).mp (hms m (List.fst_mem_of_mem_zipIdx hm))).2
  · induction h with
    | nil => simp
    | @cons m t ms ts hcovers _ ih =>
      intro u hu
      rcases List.mem_cons.mp hu with rfl | hu
      · have hproper := (isProper_iff m).mp (hms m (by simp))
        cases hkind : m.kind.isOperand with
        | false =>
          rw [hcovers.text hkind]
          exact hproper.2
        | true =>
          intro htext
          have hvalue := hcovers.value hkind
          rw [htext] at hvalue
          exact absurd hvalue (by decide)
      · exact ih (fun m hm => hms m (by simp [hm])) u hu

theorem Mark.forall_kind {P : TokenKind → Prop} (h : List.Forall₂ Covers ms ts)
    (hms : ∀ m ∈ ms, P m.kind) :
    ∀ t ∈ ts, P t.kind := by
  induction h with
  | nil => simp
  | @cons m t ms ts hcovers _ ih =>
    intro u hu
    rcases List.mem_cons.mp hu with rfl | hu
    · rw [hcovers.kind]
      exact hms m (by simp)
    · exact ih (fun m hm => hms m (by simp [hm])) u hu

/-- A line of a shape is recognised as the line of its marks. -/
theorem recognise?_of_marks (h : List.Forall₂ Mark.Covers ms ts) (hms : ∀ m ∈ ms, m.isProper = true)
    (v : Version) :
    Grammar.builtin.recognise? v ts =
      (Grammar.builtin.recognise? v (Mark.tokens ms)).map (Recognition.map (Token.inLine ts)) := by
  obtain ⟨hmarks, hline⟩ := Mark.text_ne_random h hms
  have hmap := Mark.tokens_map h
  rw [← Grammar.recognise?_map v, hmap]
  intro e he
  have hlawful := builtin_lawful.lawful e he
  rw [hmap]
  by_cases hwords : ∀ w ∈ e.words, looksLikeValue w = false
  · have hfit := Entry.fit?_map (Mark.renames h hms hwords)
    rwa [hmap] at hfit
  · -- The form has a word that neither line has.
    have hrandom : "random" ∈ e.words := by
      simp only [not_forall, Bool.not_eq_false] at hwords
      obtain ⟨w, hw, hvalue⟩ := hwords
      exact hlawful.word w hw hvalue
    have hnone : ∀ us : List Token, (∀ t ∈ us, t.text ≠ "random") → e.fit? us = none := by
      intro us hus
      rw [Option.eq_none_iff_forall_ne_some]
      intro m hm
      obtain ⟨t, ht, htext⟩ := Entry.exists_of_fit? hm hrandom
      exact hus t ht htext
    rw [hnone ts hline, hnone _ hmarks]
    rfl

end

/-! ## Samples -/

structure Binding where
  kind : ParamKind
  places : List Nat
  deriving DecidableEq

def Binding.parameter (ts : List Token) (b : Binding) : Parameter :=
  ⟨b.kind, b.places.map fun i => ts.getD i default⟩

structure Outline where
  form : FormId
  conditional : Conditional
  bindings : List Binding
  deriving DecidableEq

def Recognition.outline (r : Recognition) : Outline :=
  ⟨r.entry.form.id, r.fit.conditional, (r.fit.parameters r.entry.form).map fun p =>
    ⟨p.kind, p.tokens.map (·.start)⟩⟩

structure Sample where
  marks : List Mark
  outline : Outline

def expressionMarks : List (List Mark) :=
  [[.var], [.number], [.minus, .number], [.var, .op "+", .number], [.var, .op "-", .number],
    [.var, .op "+", .var], [.var, .op "-", .var], [.number, .op "-", .var],
    [.minus, .number, .op "-", .var]]

def testMarks : List (List Mark) := [[.var], [.var, .op "<", .var], [.var, .op ">", .var]]

def valueMarks : List (List Mark) :=
  [.minus, .number] :: [.var, .number, .string, .null, .gameObject, .scriptObject].map fun kind =>
    [.operand kind]

namespace Sample

/-- A variable is set to the value of an expression. -/
def assignment (ms : List Mark) : Sample :=
  ⟨.var :: .op "=" :: ms, FormId.expression, .assign,
    [⟨.retVarIf, [0, 1]⟩, ⟨.expression, List.range' 2 ms.length⟩]⟩

def test (ms : List Mark) : Sample :=
  ⟨⟨.keyword, "while"⟩ :: ms, FormId.expression, .whileTrue,
    [⟨.retVarIf, [0]⟩, ⟨.expression, List.range' 1 ms.length⟩]⟩

def allocation : Sample :=
  ⟨[.var, .op "=", .word "array", ⟨.label, "alloc:"⟩, .word "size", .op "=", .number], 15, .assign,
    [⟨.retVar, [0, 1]⟩, ⟨.number, [6]⟩]⟩

def store (ms : List Mark) : Sample :=
  ⟨[.var, .op "[", .number, .op "]", .op "="] ++ ms, 18, .discard,
    [⟨.var, [0]⟩, ⟨.value, [2]⟩, ⟨.value, List.range' 5 ms.length⟩]⟩

/-- A variable is set to the size of an array. -/
def size : Sample :=
  ⟨[.var, .op "=", .word "size", .word "of", .word "array", .var], 16, .assign,
    [⟨.retVarIf, [0, 1]⟩, ⟨.var, [5]⟩]⟩

def decrement : Sample := ⟨[.word "dec", .var, .op "="], 14, .discard, [⟨.var, [1]⟩]⟩

/-- A variable is set to an element of an array. -/
def load : Sample :=
  ⟨[.var, .op "=", .var, .op "[", .var, .op "]"], 17, .assign,
    [⟨.retVarIf, [0, 1]⟩, ⟨.var, [2]⟩, ⟨.value, [4]⟩]⟩

def all : List Sample :=
  expressionMarks.map assignment ++ testMarks.map test ++ valueMarks.map store ++
    [allocation, size, decrement, load]

end Sample

set_option maxRecDepth 20000 in
theorem outline_of_sample : ∀ v ∈ Version.all, ∀ s ∈ Sample.all,
    (∀ m ∈ s.marks, m.isProper = true) ∧
    ((Grammar.builtin.recognise? v (Mark.tokens s.marks)).filter (·.supported)).map
      Recognition.outline =
      some s.outline := by
  rw [Grammar.builtin_eq]
  decide +kernel

/-- Every line of a sample's shape is the sample's command, with its own tokens. -/
theorem recognise?_of_sample {s : Sample} (hs : s ∈ Sample.all) {ts : List Token}
    (hts : List.Forall₂ Mark.Covers s.marks ts) (v : Version) :
    ∃ r, Grammar.builtin.recognise? v ts = some r ∧ r.supported = true ∧
      r.entry.form.id = s.outline.form ∧
      r.fit.conditional = s.outline.conditional ∧
      r.fit.parameters r.entry.form = s.outline.bindings.map (Binding.parameter ts) := by
  have hv : v ∈ Version.all := by cases v <;> decide
  obtain ⟨hproper, houtline⟩ := outline_of_sample v hv s hs
  obtain ⟨r, hr, houtline⟩ := Option.map_eq_some_iff.mp houtline
  obtain ⟨hr, hsupported⟩ := Option.filter_eq_some_iff.mp hr
  refine ⟨r.map (Token.inLine ts), ?_, hsupported, ?_, ?_, ?_⟩
  · rw [recognise?_of_marks hts hproper, hr, Option.map_some]
  · rw [← houtline]
    rfl
  · rw [← houtline]
    rfl
  · rw [← houtline]
    simp only [Recognition.map, Recognition.outline, Fit.parameters_map, List.map_map]
    refine List.map_congr_left fun p _ => ?_
    simp [Binding.parameter, Token.inLine, Function.comp_def]

end GameScript
