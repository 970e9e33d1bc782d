import GameScript.Proofs.Shorthand.Lines
import GameScript.Proofs.Shorthand.Phrases
import GameScript.Proofs.Statement.Places

/-!
# What the lines of an expansion say

Every line that stands for a shorthand is read as the command it is meant to be, and the parameters
of this command are well typed.
-/

namespace GameScript

/-! ## Reading lines of a known shape -/

structure Statement.Tells (u : Statement) (s : Sample) (ts : List Token) : Prop where
  form : u.form = s.outline.form
  conditional : u.conditional = s.outline.conditional
  parameters : u.parameters.map (·.bare) = s.outline.bindings.map (Binding.parameter ts)
  takes : ∀ p ∈ u.parameters, p.kind.Takes p.tokens

/-- The line consists of these tokens, and is of the shape of the sample. -/
structure Sentence (s : Sample) (ts : List Token) (line : String) : Prop where
  sample : s ∈ Sample.all
  bare : Token.startsBare line.toList = true
  scan : Token.scan false line.toList = ts
  covers : List.Forall₂ Mark.Covers s.marks ts
  closed : Statement.unterminated? ts = none

/-- A generated line of a sample's shape is read as the sample's command. -/
theorem Sentence.exists_readLine {s : Sample} {ts : List Token} {line : String}
    (h : Sentence s ts line) {e : Setting} (he : e.grammar = .builtin) (number : Nat) :
    ∃ u, Generated.readLine e number line = .ok u ∧ u.Tells s ts := by
  have hcomment := Token.comment?_of_startsBare h.bare
  obtain ⟨us, hus⟩ : ∃ us, Token.significant (Token.tokenize line false) = us := ⟨_, rfl⟩
  have hplaced : us.map Token.bare = ts := by
    rw [← h.scan, ← hus, Token.tokenize_of_startsBare h.bare, Token.scan]
  -- The tokens are recognised without their places, so they are recognised.
  obtain ⟨r, hr, hsupported, hform, hconditional, hparameters⟩ :=
    recognise?_of_sample h.sample h.covers e.version
  rw [← hplaced, Grammar.recognise?_bare, Option.map_eq_some_iff] at hr
  obtain ⟨r, hr, rfl⟩ := hr
  have hproblem : Statement.problem? e.version us r = none := by
    have hclosed := h.closed
    rw [← hplaced, Statement.unterminated?_bare, Option.map_eq_none_iff] at hclosed
    have hsupported : r.supported = true := hsupported
    simp [Statement.problem?, hclosed, hsupported]
  have hne : us ≠ [] := by
    have hall : ∀ s ∈ Sample.all, 0 < s.marks.length := by decide
    have hpos := hall s h.sample
    rw [h.covers.length_eq, ← hplaced, List.length_map] at hpos
    exact List.ne_nil_of_length_pos hpos
  have hread : Statement.read .builtin e.version number line = _ :=
    Statement.read_eq_of_fits hus hne (congrArg Option.isSome hcomment) hr
  have hlawful := builtin_lawful.lawful _ (Recognition.of_recognise? hr).1
  have hrecognised : (Statement.ofRecognition number line false r).isRecognised = true := by
    simpa [Statement.isRecognised, Statement.ofRecognition] using hlawful.recognised
  refine ⟨Statement.ofRecognition number line false r, ?_, hform, hconditional, ?_,
    fun p hp => (Recognition.takes hr hlawful hp).1⟩
  · simp [Generated.readLine, he, hread, hproblem, hrecognised]
  · rw [← hparameters]
    exact (Fit.parameters_map Token.bare r.fit r.entry.form).symm

/-! ## Well typed commands -/

/-- The parameters of the samples are of the declared types. -/
theorem mismatch?_of_sample : ∀ s ∈ Sample.all, ∀ b ∈ s.outline.bindings,
    (∀ i ∈ b.places, i < s.marks.length) ∧
    b.kind.mismatch? (b.parameter (Mark.tokens s.marks)).tokens = none ∧
      (b.kind = .expression →
        (Expression.evalOrder (b.parameter (Mark.tokens s.marks)).tokens).toBool = true) := by
  decide

section

variable {s : Sample} {b : Binding} {ts : List Token}

theorem Binding.map_parameter {ms : List Mark} (h : ∀ i ∈ b.places, i < ms.length) :
    (b.parameter (Mark.tokens ms)).tokens.map (Token.inLine ts) = (b.parameter ts).tokens ∧
      (b.parameter (Mark.tokens ms)).tokens ⊆ Mark.tokens ms := by
  have hget : ∀ i ∈ b.places, ∃ t ∈ Mark.tokens ms, (Mark.tokens ms).getD i default = t ∧
      t.start = i := by
    intro i hi
    have hlt : i < (Mark.tokens ms).length := by simpa [Mark.tokens] using h i hi
    refine ⟨_, List.getElem_mem hlt, ?_, ?_⟩
    · rw [List.getD_eq_getElem?_getD, List.getElem?_eq_getElem hlt, Option.getD_some]
    · simp [Mark.tokens]
  constructor
  · simp only [parameter, List.map_map]
    refine List.map_congr_left fun i hi => ?_
    obtain ⟨t, -, ht, hstart⟩ := hget i hi
    simp only [Function.comp_apply, ht, Token.inLine, hstart]
  · intro t ht
    simp only [parameter, List.mem_map] at ht
    obtain ⟨i, hi, rfl⟩ := ht
    obtain ⟨u, hu, hget, -⟩ := hget i hi
    rw [hget]
    exact hu

/-- The parameters of a line of a sample's shape are well typed if their literals fit and their
objects are known. -/
theorem Binding.wellTyped {objects : Option ObjectLibrary} {p : Parameter} (hs : s ∈ Sample.all)
    (hts : List.Forall₂ Mark.Covers s.marks ts) (hb : b ∈ s.outline.bindings)
    (hp : b.parameter ts = p.bare) (htakes : p.kind.Takes p.tokens)
    (hfit : Token.LiteralsFit p.tokens) (hknown : ∀ t ∈ p.tokens, t.Known objects) :
    p.WellTyped objects := by
  obtain ⟨hplaces, hmismatch, horder⟩ := mismatch?_of_sample s hs b hb
  obtain ⟨hmap, hsubset⟩ := @map_parameter b ts s.marks hplaces
  have hproper := (outline_of_sample default (by decide) s hs).1
  have hrenames : ∀ t ∈ (b.parameter (Mark.tokens s.marks)).tokens,
      t.Renames (Token.inLine ts) [] :=
    fun t ht => Mark.renames hts hproper (by simp) t (hsubset ht)
  have hkind : b.kind = p.kind := congrArg Parameter.kind hp
  have htokens : (b.parameter (Mark.tokens s.marks)).tokens.map (Token.inLine ts) =
      p.tokens.map Token.bare := by
    rw [hmap, hp]
    rfl
  refine ⟨ParamKind.admits_of_mismatch? htakes ?_, hfit, hknown, fun hexpression => ?_⟩
  · rw [← ParamKind.mismatch?_map fun t _ => t.renames_bare [], ← htokens, ← hkind]
    exact (ParamKind.mismatch?_map hrenames _).trans hmismatch
  · obtain ⟨order, hok⟩ : ∃ order, Expression.evalOrder (b.parameter (Mark.tokens s.marks)).tokens =
        .ok order := by
      have horder := horder (hkind.trans hexpression)
      revert horder
      cases Expression.evalOrder (b.parameter (Mark.tokens s.marks)).tokens <;> simp [Except.toBool]
    have hordered := Expression.evalOrder_map hrenames hok
    rw [htokens, Expression.evalOrder_bare] at hordered
    obtain ⟨order', horder', -⟩ := map_eq_ok_iff.mp hordered
    exact ⟨order', horder'⟩

end

/-! ## Sentences -/

theorem Statement.unterminated?_eq_none {ts : List Token}
    (h : ∀ t ∈ ts, t.kind = .gameObject → t.text.toList.getLast? = some '}') :
    unterminated? ts = none := by
  rw [unterminated?, List.find?_eq_none]
  intro t ht
  by_cases hkind : t.kind = .gameObject
  · simp [hkind, h t ht hkind]
  · simp [hkind]

theorem Token.startsBare_var {v : Token} (hv : v.Written .var) (rest : List Char) :
    startsBare (v.text.toList ++ rest) = true := by
  obtain ⟨name, hname⟩ := hv.head_dollar
  rw [hname]
  rfl

theorem Mark.covers_op (w : String) : (Mark.op w).Covers (Mark.op w).token := covers_token rfl

namespace Sentence

open Token

variable {s : Sample} {ms : List Mark} {ts xs : List Token} {x : String} {v a n : Token}

theorem of_scan {line : String} (hs : s ∈ Sample.all)
    (hobject : ∀ m ∈ s.marks, m.kind ≠ .gameObject) (hbare : startsBare line.toList = true)
    (hscan : Token.scan false line.toList = ts) (hts : List.Forall₂ Mark.Covers s.marks ts) :
    Sentence s ts line := by
  have hkinds := Mark.forall_kind (P := (· ≠ .gameObject)) hts hobject
  exact ⟨hs, hbare, hscan, hts, Statement.unterminated?_eq_none fun t ht hc =>
    absurd hc (hkinds t ht)⟩

theorem assignment (hv : v.Written .var) (hms : ms ∈ expressionMarks)
    (hscan : Token.scan false x.toList = xs) (hxs : List.Forall₂ Mark.Covers ms xs) :
    Sentence (.assignment ms) (v.bare :: (Mark.op "=").token :: xs) (v.text ++ " = " ++ x) := by
  have hobject : ∀ ms ∈ expressionMarks, ∀ m ∈ (Sample.assignment ms).marks, m.kind ≠
      .gameObject := by decide
  have hline : (v.text ++ " = " ++ x).toList =
      v.text.toList ++ ' ' :: ("=".toList ++ ' ' :: x.toList) := by simp
  refine of_scan ?_ (hobject ms hms) ?_ ?_ (.cons hv.bare.covers (.cons (Mark.covers_op "=") hxs))
  · simp only [Sample.all, List.mem_append, List.mem_map]
    exact .inl (.inl (.inl ⟨ms, hms, rfl⟩))
  · rw [hline]
    exact startsBare_var hv _
  · rw [hline, scan_receiver hv, hscan]

theorem test (hms : ms ∈ testMarks) (hscan : Token.scan false x.toList = xs)
    (hxs : List.Forall₂ Mark.Covers ms xs) :
    Sentence (.test ms) ((Mark.mk .keyword "while").token :: xs) ("while " ++ x) := by
  have hobject : ∀ ms ∈ testMarks, ∀ m ∈ (Sample.test ms).marks, m.kind ≠ .gameObject := by decide
  have hline : ("while " ++ x).toList = "while ".toList ++ x.toList := by simp
  refine of_scan ?_ (hobject ms hms) ?_ ?_ (.cons (Mark.covers_token rfl) hxs)
  · simp only [Sample.all, List.mem_append, List.mem_map]
    exact .inl (.inl (.inr ⟨ms, hms, rfl⟩))
  · rw [hline]
    rfl
  · rw [hline, scan_while, hscan]

theorem allocation (ha : a.Written .var) (hn : n.Written .number) :
    Sentence .allocation [a.bare, (Mark.op "=").token, (Mark.word "array").token,
      (Mark.mk .label "alloc:").token, (Mark.word "size").token, (Mark.op "=").token,
        n.bare] (a.text ++ " = array alloc: size=" ++ n.text) := by
  have hline : (a.text ++ " = array alloc: size=" ++ n.text).toList =
      a.text.toList ++
        ' ' :: ("=".toList ++ ' ' :: ("array alloc: size=".toList ++ n.text.toList)) := by simp
  refine of_scan (by simp [Sample.all]) (by decide) ?_ ?_ ?_
  · rw [hline]
    exact startsBare_var ha _
  · rw [hline, scan_receiver ha, scan_alloc hn]
  · exact .cons ha.bare.covers (.cons (Mark.covers_op "=")
      (.cons (Mark.covers_token rfl) (.cons (Mark.covers_token rfl)
      (.cons (Mark.covers_token rfl) (.cons (Mark.covers_op "=") (.cons hn.bare.covers .nil))))))

theorem size (hv : v.Written .var) (ha : a.Written .var) :
    Sentence .size [v.bare, (Mark.op "=").token, (Mark.word "size").token, (Mark.word "of").token,
      (Mark.word "array").token, a.bare] (v.text ++ " = size of array " ++ a.text) := by
  have hline : (v.text ++ " = size of array " ++ a.text).toList =
      v.text.toList ++
        ' ' :: ("=".toList ++ ' ' :: ("size of array ".toList ++ a.text.toList)) := by simp
  refine of_scan (by simp [Sample.all]) (by decide) ?_ ?_ ?_
  · rw [hline]
    exact startsBare_var hv _
  · rw [hline, scan_receiver hv, scan_size, ha.scan_eq]
  · exact .cons hv.bare.covers (.cons (Mark.covers_op "=")
      (.cons (Mark.covers_token rfl) (.cons (Mark.covers_token rfl)
      (.cons (Mark.covers_token rfl) (.cons ha.bare.covers .nil)))))

theorem decrement (hv : v.Written .var) :
    Sentence .decrement [(Mark.word "dec").token, v.bare, (Mark.op "=").token]
    ("dec " ++ v.text ++ " =") := by
  have hline : ("dec " ++ v.text ++ " =").toList =
      "dec ".toList ++ (v.text.toList ++ [' ', '=']) := by simp
  have hapart : Apart [' ', '='] := fun c hc => .inl (by simpa using hc.symm)
  refine of_scan (by simp [Sample.all]) (by decide) ?_ ?_ ?_
  · rw [hline]
    rfl
  · rw [hline, scan_dec, hv.scan_append _ hapart (fun hc => absurd hc (hv.not_isOpen (.inl rfl))),
      scan_equals]
  · exact .cons (Mark.covers_token rfl) (.cons hv.bare.covers (.cons (Mark.covers_op "=") .nil))

theorem load (hv : v.Written .var) (ha : a.Written .var) (hn : n.Written .var) :
    Sentence .load [v.bare, (Mark.op "=").token, a.bare, (Mark.op "[").token, n.bare,
      (Mark.op "]").token]
      (v.text ++ " = " ++ a.text ++ "[" ++ n.text ++ "]") := by
  have hline : (v.text ++ " = " ++ a.text ++ "[" ++ n.text ++ "]").toList =
      v.text.toList ++
        ' ' :: ("=".toList ++ ' ' :: (a.text.toList ++ '[' :: (n.text.toList ++ ']' :: []))) := by
          simp
  refine of_scan (by simp [Sample.all]) (by decide) ?_ ?_ ?_
  · rw [hline]
    exact startsBare_var hv _
  · rw [hline, scan_receiver hv, scan_element ha hn (.inl rfl), scan_nil]
  · exact .cons hv.bare.covers (.cons (Mark.covers_op "=")
      (.cons ha.bare.covers (.cons (Mark.covers_op "[")
      (.cons hn.bare.covers (.cons (Mark.covers_op "]") .nil)))))

theorem store (ha : a.Written .var) (hn : n.Written .number) (hts : Item ts)
    (hclosed : Statement.unterminated? ts = none) :
    ∃ ms ∈ valueMarks, Sentence (.store ms)
    ([a.bare, (Mark.op "[").token, n.bare, (Mark.op "]").token,
      (Mark.op "=").token] ++ ts.map Token.bare) (a.text ++ "[" ++ n.text ++ "] = " ++
        join ts) := by
  obtain ⟨ms, hms, hcovers⟩ : ∃ ms ∈ valueMarks,
      List.Forall₂ Mark.Covers ms (ts.map Token.bare) := by
    cases hts with
    | @operand k t h =>
      refine ⟨[.operand k], ?_, .cons h.bare.covers .nil⟩
      have hkind := h.operand
      cases k <;> first | (cases hkind; done) | simp [valueMarks]
    | @negative m n hm hn =>
      refine ⟨[.minus, .number], by simp [valueMarks], .cons ?_ (.cons hn.bare.covers .nil)⟩
      rw [bare_of_is hm]
      exact Mark.covers_token rfl
  refine ⟨ms, hms, ?_, ?_, ?_, ?_, ?_⟩
  · simp only [Sample.all, List.mem_append, List.mem_map]
    exact .inl (.inr ⟨ms, hms, rfl⟩)
  · simp only [String.toList_append, List.append_assoc]
    exact startsBare_var ha _
  · have hline : (a.text ++ "[" ++ n.text ++ "] = " ++ join ts).toList =
        a.text.toList ++
          '[' :: (n.text.toList ++ ']' :: (' ' :: ("=".toList ++ ' ' :: (join ts).toList))) := by
            simp
    rw [hline, scan_element ha hn (.inr rfl), scan_spaced (by simp), hts.scan_eq]
    rfl
  · exact .cons ha.bare.covers (.cons (Mark.covers_op "[")
      (.cons hn.bare.covers (.cons (Mark.covers_op "]")
      (.cons (Mark.covers_op "=") hcovers))))
  · have hobject : ∀ u ∈ [a.bare, (Mark.op "[").token, n.bare, (Mark.op "]").token,
        (Mark.op "=").token], u.kind ≠ .gameObject := by
      simp [Token.bare, ha.kind, hn.kind, Mark.token, Mark.op]
    have hclosed : Statement.unterminated? (ts.map Token.bare) = none := by
      rw [Statement.unterminated?_bare, hclosed, Option.map_none]
    rw [Statement.unterminated?, List.find?_append, List.find?_eq_none.mpr]
    · exact hclosed
    · intro u hu
      simp [hobject u hu]

end Sentence

/-! ## What the sentences say -/

/-- The line is read as a command that the compiler gives no meaning to. Its expressions are well
typed if `small` holds, and its other parameters are if `sized` holds. -/
def Says (e : Setting) (small sized : Prop) (line : String) : Prop :=
  ∀ number, ∃ u, Generated.readLine e number line = .ok u ∧ u.form.hasMeaning = false ∧
    ∀ p ∈ u.parameters, (if p.kind = .expression then small else sized) → p.WellTyped e.objects

/-- The text is an expression of one of the shapes, and its literals fit if `small` holds. -/
structure Formula (small : Prop) (shapes : List (List Mark)) (x : String) : Prop where
  covers : ∃ ms ∈ shapes, List.Forall₂ Mark.Covers ms (Token.scan false x.toList)
  fits : small → Token.LiteralsFit (Token.scan false x.toList)

section

open Token

variable {e : Setting} {small sized : Prop} {ts xs : List Token} {ms : List Mark} {x : String}
  {v a n : Token}

/-- The parameters of a command are those of its sample. -/
theorem Statement.Tells.parameter {u : Statement} {s : Sample} (h : u.Tells s ts) {p : Parameter}
    (hp : p ∈ u.parameters) :
    ∃ b ∈ s.outline.bindings, b.parameter ts = p.bare := by
  have hbare : p.bare ∈ s.outline.bindings.map (Binding.parameter ts) :=
    h.parameters ▸ List.mem_map_of_mem hp
  exact List.mem_map.mp hbare

theorem Sentence.said {s : Sample} {line : String} (he : e.grammar = .builtin)
    (h : Sentence s ts line)
    (hfit : ∀ b ∈ s.outline.bindings, (if b.kind = .expression then small else sized) →
      LiteralsFit (b.parameter ts).tokens ∧ ∀ t ∈ (b.parameter ts).tokens, t.Known e.objects) :
    Says e small sized line := by
  intro number
  obtain ⟨u, hu, htells⟩ := h.exists_readLine he number
  have hforms : ∀ s ∈ Sample.all, s.outline.form.hasMeaning = false := by decide
  refine ⟨u, hu, htells.form ▸ hforms s h.sample, fun p hp hcond => ?_⟩
  obtain ⟨b, hb, hparameter⟩ := htells.parameter hp
  have hkind : b.kind = p.kind := congrArg Parameter.kind hparameter
  obtain ⟨hliterals, hknown⟩ := hfit b hb (hkind ▸ hcond)
  rw [hparameter] at hliterals hknown
  exact b.wellTyped h.sample h.covers hb hparameter (htells.takes p hp)
    (literalsFit_bare.mp hliterals)
    fun t ht => hknown t.bare (List.mem_map_of_mem ht)

/-- The places from `k` on hold the tokens from `k` on. -/
theorem map_getD_range' {k n : Nat} (h : ts.length = k + n) :
    (List.range' k n).map (fun i => ts.getD i default) = ts.drop k := by
  apply List.ext_getElem
  · simp
    omega
  · intro i h₁ h₂
    simp only [List.length_map, List.length_range'] at h₁
    simp only [List.getElem_map, List.getElem_range', Nat.one_mul, List.getElem_drop]
    rw [List.getD_eq_getElem?_getD, List.getElem?_eq_getElem (by omega), Option.getD_some]

/-- There are no objects in the expressions of samples. -/
theorem known_of_covers {objects : Option ObjectLibrary} (hms : ms ∈ expressionMarks ++ testMarks)
    (hxs : List.Forall₂ Mark.Covers ms xs) : ∀ t ∈ xs, t.Known objects := by
  have hall : ∀ ms ∈ expressionMarks ++ testMarks, ∀ m ∈ ms, m.kind ≠ .gameObject ∧
      m.kind ≠ .scriptObject := by decide
  have hkinds :=
    Mark.forall_kind (P := fun k => k ≠ .gameObject ∧ k ≠ .scriptObject) hxs (hall ms hms)
  intro t ht library _
  exact ⟨fun hc => absurd hc (hkinds t ht).1, fun hc => absurd hc (hkinds t ht).2⟩

theorem says_assignment (he : e.grammar = .builtin) (hv : v.Written .var)
    (hx : Formula small expressionMarks x) :
    Says e small sized (v.text ++ " = " ++ x) := by
  obtain ⟨⟨ms, hms, hxs⟩, hfit⟩ := hx
  refine (Sentence.assignment hv hms rfl hxs).said he fun b hb hcond => ?_
  simp only [Sample.assignment, List.mem_cons, List.not_mem_nil, or_false] at hb
  rcases hb with rfl | rfl
  · refine ParamKind.literalsFit_of_plain ?_
    simp [Binding.parameter, Token.bare, hv.kind, Mark.token, Mark.op]
  · have htokens : (Binding.mk .expression (List.range' 2 ms.length)).parameter
        (v.bare :: (Mark.op "=").token :: Token.scan false x.toList) =
          ⟨.expression, Token.scan false x.toList⟩ := by
      rw [Binding.parameter, map_getD_range' (by rw [hxs.length_eq, Nat.add_comm]; rfl)]
      rfl
    rw [htokens]
    exact ⟨hfit hcond, known_of_covers (List.mem_append_left _ hms) hxs⟩

theorem says_test (he : e.grammar = .builtin) (hx : Formula small testMarks x) :
    Says e small sized ("while " ++ x) := by
  obtain ⟨⟨ms, hms, hxs⟩, -⟩ := hx
  have hnumber : ∀ ms ∈ testMarks, ∀ m ∈ ms, m.kind ≠ .number ∧ m.kind ≠ .gameObject ∧
      m.kind ≠ .scriptObject := by decide
  have hkinds :=
    Mark.forall_kind (P := fun k => k ≠ .number ∧ k ≠ .gameObject ∧
      k ≠ .scriptObject) hxs (hnumber ms hms)
  refine (Sentence.test hms rfl hxs).said he fun b hb hcond => ?_
  simp only [Sample.test, List.mem_cons, List.not_mem_nil, or_false] at hb
  rcases hb with rfl | rfl
  · refine ParamKind.literalsFit_of_plain ?_
    simp [Binding.parameter, Mark.token]
  · refine ParamKind.literalsFit_of_plain ?_
    rw [Binding.parameter, map_getD_range' (by simp [hxs.length_eq, Nat.add_comm])]
    exact hkinds

theorem says_size (he : e.grammar = .builtin) (hv : v.Written .var) (ha : a.Written .var) :
    Says e small sized (v.text ++ " = size of array " ++ a.text) := by
  refine (Sentence.size hv ha).said he fun b hb hcond => ParamKind.literalsFit_of_plain ?_
  simp only [Sample.size, List.mem_cons, List.not_mem_nil, or_false] at hb
  rcases hb with rfl | rfl <;> simp [Binding.parameter, Token.bare, hv.kind, ha.kind,
    Mark.token, Mark.op]

theorem says_decrement (he : e.grammar = .builtin) (hv : v.Written .var) :
    Says e small sized ("dec " ++ v.text ++ " =") := by
  refine (Sentence.decrement hv).said he fun b hb hcond => ParamKind.literalsFit_of_plain ?_
  simp only [Sample.decrement, List.mem_singleton] at hb
  rw [hb]
  simp [Binding.parameter, Token.bare, hv.kind]

theorem says_load (he : e.grammar = .builtin) (hv : v.Written .var) (ha : a.Written .var)
    (hn : n.Written .var) :
    Says e small sized (v.text ++ " = " ++ a.text ++ "[" ++ n.text ++ "]") := by
  refine (Sentence.load hv ha hn).said he fun b hb hcond => ParamKind.literalsFit_of_plain ?_
  simp only [Sample.load, List.mem_cons, List.not_mem_nil, or_false] at hb
  rcases hb with rfl | rfl | rfl <;> simp [Binding.parameter, Token.bare, hv.kind, ha.kind, hn.kind,
    Mark.token, Mark.op]

theorem literalsFit_number {objects : Option ObjectLibrary} (hn : n.Written .number)
    (hfit : literalFits false n.text = true) :
    LiteralsFit [n.bare] ∧ ∀ t ∈ [n.bare], t.Known objects := by
  refine ⟨.single fun _ => hfit, fun t ht library _ => ?_⟩
  rw [List.mem_singleton.mp ht]
  simp [Token.bare, hn.kind]

theorem says_allocation (he : e.grammar = .builtin) (ha : a.Written .var) (hn : n.Written .number)
    (hfit : sized → literalFits false n.text = true) :
    Says e small sized (a.text ++ " = array alloc: size=" ++ n.text) := by
  refine (Sentence.allocation ha hn).said he fun b hb hcond => ?_
  simp only [Sample.allocation, List.mem_cons, List.not_mem_nil, or_false] at hb
  rcases hb with rfl | rfl
  · refine ParamKind.literalsFit_of_plain ?_
    simp [Binding.parameter, Token.bare, ha.kind, Mark.token, Mark.op]
  · exact literalsFit_number hn (hfit hcond)

theorem says_store (he : e.grammar = .builtin) (ha : a.Written .var) (hn : n.Written .number)
    (hts : Item ts) (hclosed : Statement.unterminated? ts = none)
    (hfit : sized → literalFits false n.text = true)
    (hitem : sized → LiteralsFit (ts.map Token.bare) ∧ ∀ t ∈ ts.map Token.bare, t.Known e.objects) :
    Says e small sized (a.text ++ "[" ++ n.text ++ "] = " ++ join ts) := by
  obtain ⟨ms, hms, hsentence⟩ := Sentence.store ha hn hts hclosed
  have hlength : (ts.map Token.bare).length = ms.length := by
    have hlength := hsentence.covers.length_eq
    simp only [Sample.store, List.length_append, List.length_cons, List.length_nil] at hlength
    omega
  refine hsentence.said he fun b hb hcond => ?_
  simp only [Sample.store, List.mem_cons, List.not_mem_nil, or_false] at hb
  rcases hb with rfl | rfl | rfl
  · refine ParamKind.literalsFit_of_plain ?_
    simp [Binding.parameter, Token.bare, ha.kind]
  · exact literalsFit_number hn (hfit hcond)
  · have htokens : (Binding.mk .value (List.range' 5 ms.length)).parameter
        ([a.bare, (Mark.op "[").token, n.bare,
        (Mark.op "]").token, (Mark.op "=").token] ++ ts.map Token.bare) =
          ⟨.value, ts.map Token.bare⟩ := by
      rw [Binding.parameter, map_getD_range' (by rw [List.length_append, hlength]; rfl)]
      rfl
    rw [htokens]
    exact hitem hcond

end

end GameScript
