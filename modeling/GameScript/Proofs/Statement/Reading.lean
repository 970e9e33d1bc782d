import GameScript.Linkage.Destinations
import GameScript.Proofs.Lists
import GameScript.Proofs.Blocks.Nesting
import GameScript.Proofs.Statement.Lawful
import GameScript.Statement.Reader

/-!
# What reading a line tells

Lines read with a lawful table fall into few kinds.

* `read_regular`: the role of a statement tells whether it is executed.
* `read_executed`: an executed statement is a test, leaves a loop, jumps to a label, waits for its
  expansion, or does none of these.
* `role_of_first`, `role_of_while`: what the first token of a line says about its role.
-/

namespace GameScript

namespace Statement

/-! ## Roles -/

theorem classify_regular (form : FormId) (conditional : Conditional) (commented : Bool) :
    (((classify form conditional commented).2 == .standard) =
      decide ((classify form conditional commented).1 ≠ .idle ∧
        (classify form conditional commented).1 ≠ .close ∧
        (classify form conditional commented).1 ≠ .otherwise)) ∧
      (commented = true → (classify form conditional commented).1 = .idle) := by
  refine ⟨?_, fun h => by simp [classify, h]⟩
  unfold classify
  repeat' split
  all_goals first | rfl | cases conditional <;> rfl

theorem isLive_part (s : Statement) :
    s.part.isLive = decide (s.role ≠ .idle ∧ s.role ≠ .close ∧ s.role ≠ .otherwise) := by
  by_cases hs : s.form.isShorthand = true <;> cases h : s.role <;> simp [part, h, hs, Part.isLive]

theorem part_of_idle {s : Statement} (h : s.role = .idle) : s.part = .idle := by
  simp [part, h]

/-- The role of a classified statement tells whether it is executed. -/
theorem regular_of_classify {s : Statement} (conditional : Conditional)
    (h : (s.role, s.kind) = classify s.form conditional s.commented) : s.Regular := by
  have hc := classify_regular s.form conditional s.commented
  rw [← h] at hc
  refine ⟨?_, fun hcommented => part_of_idle (hc.2 hcommented)⟩
  rw [isStandard, isLive_part]
  exact hc.1

/-- A line is blank, a comment, unrecognised, or spells a form of the table. -/
theorem read_cases (g : Grammar) (v : Version) (number : Nat) (line : String) :
    read g v number line = ⟨nop number, none⟩ ∨ read g v number line = ⟨comment number line, none⟩ ∨
      read g v number line = ⟨unrecognised number line,
        some (.of .unrecognised number (unrecognised number line).text)⟩ ∨
      ∃ commented r, g.recognise? v (Token.significant (Token.tokenize line false)) = some r ∧
        read g v number line = ⟨ofRecognition number line commented r,
          (if commented then none else problem? v (Token.significant (Token.tokenize line false))
            r).map fun p =>
            .of p number (ofRecognition number line commented r).text⟩ := by
  unfold read
  dsimp only
  split
  · split
    · exact .inr (.inl rfl)
    · exact .inl rfl
  · split
    · split
      · exact .inr (.inl rfl)
      · exact .inr (.inr (.inl rfl))
    · next r hr => exact .inr (.inr (.inr ⟨_, r, hr, rfl⟩))

theorem read_eq_of_fits {g : Grammar} {v : Version} {number : Nat} {line : String} {ts : List Token}
    {r : Recognition} {commented : Bool} (hts : Token.significant (Token.tokenize line false) = ts)
    (hne : ts ≠ []) (hcommented : (Token.comment? (Token.tokenize line false)).isSome = commented)
    (h : g.recognise? v ts = some r) :
    read g v number line = ⟨ofRecognition number line commented r,
      (if commented then none else problem? v ts r).map fun p =>
        .of p number (ofRecognition number line commented r).text⟩ := by
  have hempty : ts.isEmpty = false := by simpa using hne
  simp only [read, hts, hcommented, hempty, h, Bool.false_eq_true, if_false]

/-- Every line is read as a statement whose role tells whether it is executed. -/
theorem read_regular (g : Grammar) (v : Version) (number : Nat) (line : String) :
    (read g v number line).statement.Regular := by
  rcases read_cases g v number line with h | h | h | ⟨commented, r, _, h⟩ <;> rw [h]
  · exact regular_of_classify .discard rfl
  · exact regular_of_classify .discard rfl
  · exact regular_of_classify .discard rfl
  · exact regular_of_classify r.fit.conditional rfl

end Statement

/-! ## Parameters -/

namespace Fit

variable {f : Form} {m : Fit}

theorem parameters_getElem? {i : Nat} {kind : ParamKind} {ts : List Token}
    (hkind : f.kindAt? i = some kind) (hslot : m.slots[i]? = some (some ts)) :
    (m.parameters f)[i]? = some ⟨kind, ts⟩ := by
  simp only [Form.kindAt?, Option.map_eq_some_iff] at hkind
  obtain ⟨decl, hdecl, rfl⟩ := hkind
  have hzip : (f.params.zip m.slots)[i]? = some (decl, some ts) :=
    List.getElem?_zip_eq_some.mpr ⟨hdecl, hslot⟩
  simp [parameters, hzip]

/-- A form without return slots gives a statement without one. -/
theorem returnSlot_eq_none (h : ∀ p ∈ f.params, p.kind.isReturnSlot = false) :
    ((m.parameters f).find? fun p => p.kind.isReturnSlot) = none := by
  rw [List.find?_eq_none]
  intro p hp
  simp only [parameters, List.mem_map] at hp
  obtain ⟨⟨decl, ts⟩, hmem, rfl⟩ := hp
  simp [h decl (List.of_mem_zip hmem).1]

theorem kinds_parameters (hlength : m.slots.length = f.params.length) :
    (m.parameters f).map Parameter.kind = f.params.map ParamDecl.kind := by
  have hfst : (f.params.zip m.slots).map Prod.fst = f.params :=
    List.map_fst_zip (Nat.le_of_eq hlength.symm)
  conv_rhs => rw [← hfst]
  simp only [parameters, List.map_map]
  rfl

theorem countP_parameters (hlength : m.slots.length = f.params.length) (p : ParamKind → Bool) :
    (m.parameters f).countP (fun q => p q.kind) = f.params.countP fun q => p q.kind := by
  have hkinds := congrArg (List.countP p) (kinds_parameters hlength)
  rwa [List.countP_map, List.countP_map] at hkinds

/-- Where a form has one return slot at most, it is found. -/
theorem returnSlot_eq_some {i : Nat} {kind : ParamKind} {ts : List Token}
    (hlength : m.slots.length = f.params.length)
    (hsingle : f.params.countP (fun p => p.kind.isReturnSlot) ≤ 1) (hkind : f.kindAt? i = some kind)
    (hreturn : kind.isReturnSlot = true) (hslot : m.slots[i]? = some (some ts)) :
    ((m.parameters f).find? fun p => p.kind.isReturnSlot) = some ⟨kind, ts⟩ := by
  rw [← countP_parameters hlength] at hsingle
  exact find?_of_countP_le_one hsingle (parameters_getElem? hkind hslot) hreturn

end Fit

/-! ## Kinds of executed statements -/

/-- What an executed statement does about the order of execution. -/
inductive Statement.Executed (s : Statement) : Prop
  /-- It goes on depending on its result. -/
  | test (hjump : s.conditional.isJump = true) (hrole : s.role = s.conditional.role)
      (hslot : s.returnSlot?.isSome = true) (hform : s.form.hasMeaning = false)
  /-- It leaves the current round of a loop. -/
  | exit (hform : (s.form = FormId.breakLoop ∧ s.role = .leave) ∨
      (s.form = FormId.continueLoop ∧ s.role = .again)) (hslot : s.returnSlot? = none)
  /-- It jumps to a label. -/
  | labelJump (hform : s.form = FormId.gotoLabel ∨ s.form = FormId.gosub) (hrole : s.role = .plain)
      (hlabel : s.label?.isSome = true) (hslot : s.returnSlot? = none)
  /-- It is a loop shorthand. -/
  | waiting (hform : s.form.isLoopShorthand = true) (hrole : s.role = .loop)
  /-- It does nothing about the order of execution. -/
  | plain (hrole : s.role = .plain) (hjump : s.conditional.isJump = false)
      (hform : Session.jumpsAlways s.form = false)
      (hassign : s.conditional = .assign → s.isRecognised = true ∧
        ∃ v ∈ s.vars, s.assigned? = some v)

namespace Recognition

variable {g : Grammar} {v : Version} {ts : List Token} {r : Recognition}

theorem of_recognise? (h : g.recognise? v ts = some r) :
    r.entry ∈ g.candidates ∧ r.entry.fit? ts = some r.fit := by
  simp only [Grammar.recognise?, Option.orElse_eq_orElse, Option.orElse_eq_or,
    Option.or_eq_some_iff] at h
  rcases h with h | ⟨_, h⟩
  · obtain ⟨e, he, hfit⟩ := List.exists_of_findSome?_eq_some h
    split at hfit
    · rw [Option.map_eq_some_iff] at hfit
      obtain ⟨m, hm, rfl⟩ := hfit
      exact ⟨he, hm⟩
    · cases hfit
  · obtain ⟨e, he, hfit⟩ := List.exists_of_findSome?_eq_some h
    rw [Option.map_eq_some_iff] at hfit
    obtain ⟨m, hm, rfl⟩ := hfit
    exact ⟨he, hm⟩

theorem binds (h : g.recognise? v ts = some r) : Entry.Binds r.entry.form ts r.fit :=
  (Entry.Binds.empty r.entry.form ts).fits (Entry.fits_of_fitPieces? (of_recognise? h).2)
    (List.Subset.refl ts) |>.1

/-- Every parameter that the template shows is bound. -/
theorem bound (h : g.recognise? v ts = some r) {i : Nat} (hi : .slot i ∈ r.entry.pieces) :
    ∃ us, r.fit.slots[i]? = some (some us) :=
  (Entry.Binds.empty r.entry.form ts).fits (Entry.fits_of_fitPieces? (of_recognise? h).2)
    (List.Subset.refl ts) |>.2 i (.inl hi)

/-- Every parameter is one that its kind takes, and it is made of tokens of the line. -/
theorem takes (h : g.recognise? v ts = some r) (hlawful : r.entry.Lawful) {p : Parameter}
    (hp : p ∈ r.fit.parameters r.entry.form) : p.kind.Takes p.tokens ∧ p.tokens ⊆ ts := by
  obtain ⟨i, hi⟩ := List.getElem?_of_mem hp
  have hlt : i < r.entry.form.params.length := by
    have hlt := (List.getElem?_eq_some_iff.mp hi).1
    simp only [Fit.parameters, List.length_map, List.length_zip] at hlt
    omega
  have hkind : r.entry.form.kindAt? i = some r.entry.form.params[i].kind := by
    rw [Form.kindAt?, List.getElem?_eq_getElem hlt, Option.map_some]
  obtain ⟨us, hus⟩ := bound h (hlawful.shown i hlt)
  rw [Fit.parameters_getElem? hkind hus, Option.some.injEq] at hi
  subst hi
  exact ⟨(binds h).takes i us _ hus hkind, (binds h).tokens i us hus⟩

variable (number : Nat) (line : String)

/-- A form that the compiler gives a meaning to has no return slot. -/
theorem returnSlot?_of_hasMeaning {commented : Bool} (hlawful : r.entry.Lawful)
    (hid : r.entry.form.id.hasMeaning = true) :
    (Statement.ofRecognition number line commented r).returnSlot? = none :=
  Fit.returnSlot_eq_none (hlawful.meaning hid)

/-- A conditional is spelled by the return slot. -/
theorem returnSlot?_of_conditional {commented : Bool} (h : g.recognise? v ts = some r)
    (hlawful : r.entry.Lawful) (hc : r.fit.conditional ≠ .discard) :
    ∃ p, (Statement.ofRecognition number line commented r).returnSlot? = some p ∧
      (r.fit.conditional = .assign → ∃ v rest, p.tokens = v :: rest ∧ v.kind = .var) := by
  obtain ⟨i, kind, us, hkind, hreturn, hslot, hassign⟩ := (binds h).slot hc
  exact ⟨⟨kind, us⟩, Fit.returnSlot_eq_some (binds h).length hlawful.single hkind hreturn hslot,
    hassign⟩

theorem assigned? {commented : Bool} (h : g.recognise? v ts = some r) (hlawful : r.entry.Lawful)
    (hc : r.fit.conditional = .assign) :
    ∃ v ∈ (Statement.ofRecognition number line commented r).vars,
      (Statement.ofRecognition number line commented r).assigned? = some v := by
  obtain ⟨p, hp, hassign⟩ := returnSlot?_of_conditional number line h hlawful (by simp [hc])
  obtain ⟨v, rest, htokens, hv⟩ := hassign hc
  refine ⟨v, ?_, ?_⟩
  · rw [Statement.vars, List.mem_filter, List.mem_flatMap]
    exact ⟨⟨p, List.mem_of_find?_eq_some hp, by simp [htokens]⟩, by simp [hv]⟩
  · have hconditional : (Statement.ofRecognition number line commented r).conditional = .assign :=
      hc
    rw [Statement.assigned?, if_pos hconditional, hp]
    simp [htokens]

theorem label? {commented : Bool} (h : g.recognise? v ts = some r) (hlawful : r.entry.Lawful)
    (hid : r.entry.form.id = FormId.gotoLabel ∨ r.entry.form.id = FormId.gosub) :
    (Statement.ofRecognition number line commented r).label?.isSome = true := by
  have hkind := hlawful.label hid
  obtain ⟨us, hus⟩ := bound h (hlawful.shown 0 (Entry.kindAt?_lt hkind))
  obtain ⟨t, rfl, ht⟩ := (binds h).takes 0 us _ hus hkind
  have hparameter := Fit.parameters_getElem? hkind hus
  rw [← List.head?_eq_getElem?] at hparameter
  have hhead : (Statement.ofRecognition number line commented r).parameters.head? =
      some ⟨.labelName, [t]⟩ := hparameter
  simp [Statement.label?, hhead, Parameter.label?, ht]

end Recognition

theorem Statement.ofRecognition_executed {g : Grammar} {v : Version} {ts : List Token}
    {r : Recognition} (hg : g.Lawful) (h : g.recognise? v ts = some r) (number : Nat)
    (line : String) (hstandard : (ofRecognition number line false r).isStandard = true) :
    (ofRecognition number line false r).Executed := by
  have hmem := (Recognition.of_recognise? h).1
  have hlawful := hg.lawful _ hmem
  have hmatch := hg.matchable _ hmem
  set s := ofRecognition number line false r with hs
  have hform : s.form = r.entry.form.id := rfl
  have hconditional : s.conditional = r.fit.conditional := rfl
  have hrole : (s.role, s.kind) = classify s.form s.conditional false := rfl
  have hnone : s.form.hasMeaning = true → s.returnSlot? = none :=
    Recognition.returnSlot?_of_hasMeaning number line hlawful
  simp only [FormId.isUnmatchable, ← hform, Bool.or_eq_false_iff, beq_eq_false_iff_ne] at hmatch
  obtain ⟨⟨hnop, hcomment⟩, hjump⟩ := hmatch
  unfold classify at hrole
  simp only [Bool.false_or, hnop, hcomment, beq_iff_eq, Bool.or_eq_true, or_self, if_false] at hrole
  by_cases hend : s.form = FormId.endBlock
  · rw [if_pos hend] at hrole
    simp [isStandard, (Prod.mk.inj hrole).2] at hstandard
  rw [if_neg hend] at hrole
  by_cases helse : s.form = FormId.elseBlock
  · rw [if_pos helse] at hrole
    simp [isStandard, (Prod.mk.inj hrole).2] at hstandard
  rw [if_neg helse] at hrole
  by_cases hbreak : s.form = FormId.breakLoop
  · rw [if_pos hbreak] at hrole
    exact .exit (.inl ⟨hbreak, (Prod.mk.inj hrole).1⟩) (hnone (by rw [hbreak]; decide))
  rw [if_neg hbreak] at hrole
  by_cases hcontinue : s.form = FormId.continueLoop
  · rw [if_pos hcontinue] at hrole
    exact .exit (.inr ⟨hcontinue, (Prod.mk.inj hrole).1⟩) (hnone (by rw [hcontinue]; decide))
  have hrecognised : s.form ≠ FormId.unrecognised := hlawful.recognised
  rw [if_neg hcontinue, if_neg hrecognised] at hrole
  by_cases hloop : s.form.isLoopShorthand = true
  · rw [if_pos hloop] at hrole
    exact .waiting hloop (Prod.mk.inj hrole).1
  rw [if_neg hloop] at hrole
  replace hrole := (Prod.mk.inj hrole).1
  cases htest : s.conditional.isJump with
  | true =>
    have hdiscard : r.fit.conditional ≠ .discard := by
      rw [← hconditional]
      rintro hc
      simp [hc, Conditional.isJump] at htest
    obtain ⟨p, hp, -⟩ := Recognition.returnSlot?_of_conditional number line h hlawful hdiscard
    refine .test htest hrole (by rw [hp]; rfl) ?_
    rw [Bool.eq_false_iff]
    intro hmeaning
    rw [hnone hmeaning] at hp
    cases hp
  | false =>
    have hplain : s.role = .plain := by
      rw [hrole]
      cases hc : s.conditional <;> simp_all [Conditional.isJump, Conditional.role]
    by_cases hlabel : s.form = FormId.gotoLabel ∨ s.form = FormId.gosub
    · refine .labelJump hlabel hplain (Recognition.label? number line h hlawful hlabel) (hnone ?_)
      rcases hlabel with h | h <;> rw [h] <;> decide
    · rw [not_or] at hlabel
      refine .plain hplain htest ?_ fun hassign =>
        ⟨?_, Recognition.assigned? number line h hlawful hassign⟩
      · simp [Session.jumpsAlways, hjump, hbreak, hcontinue, hlabel.1, hlabel.2]
      · simpa [isRecognised] using hrecognised

theorem Statement.read_executed {g : Grammar} (hg : g.Lawful) (v : Version) (number : Nat)
    (line : String) (hstandard : (read g v number line).statement.isStandard = true)
    (hcommented : (read g v number line).statement.commented = false) :
    (read g v number line).statement.Executed := by
  rcases read_cases g v number line with h | h | h | ⟨commented, r, hr, h⟩ <;>
    rw [h] at hstandard hcommented ⊢
  · cases hstandard
  · cases hstandard
  · exact .plain rfl rfl rfl fun hassign => by cases hassign
  · obtain rfl : commented = false := hcommented
    exact ofRecognition_executed hg hr number line hstandard

/-! ## The first token of a line -/

/-- No conditional is spelled without a keyword. -/
theorem ParamKind.conditionalAt_of_ne_keyword {t : Token} {ts : List Token}
    (h : t.kind ≠ .keyword) :
    (conditionalAt (t :: ts)).1.role = .plain := by
  have hnone : (spelled.find? fun c => startsWith c.keywords (t :: ts)) = none := by
    rw [List.find?_eq_none]
    intro c hc
    have hwords : ∀ w ws, startsWith (w :: ws) (t :: ts) = false := by
      intro w ws
      simp [startsWith, Token.is, h]
    simp only [spelled, List.mem_cons, List.not_mem_nil, or_false] at hc
    rcases hc with rfl | rfl | rfl | rfl | rfl | rfl | rfl | rfl | rfl <;>
      simp [Conditional.keywords, hwords]
  simp only [conditionalAt, hnone]
  cases ts with
  | nil => rfl
  | cons e _ =>
    simp only
    split <;> rfl

theorem ParamKind.conditionalAt_of_while {t : Token} {ts : List Token}
    (h : t.is .keyword "while" = true) :
    (conditionalAt (t :: ts)).1.role = .loop := by
  have hother : ∀ w ws, w ≠ "while" → startsWith (w :: ws) (t :: ts) = false := by
    intro w ws hw
    simp only [Token.is, Bool.and_eq_true, beq_iff_eq] at h
    simp [startsWith, Token.is, h.2, Ne.symm hw]
  have hstarts : startsWith ["while"] (t :: ts) = true := by simp [startsWith, h]
  simp only [conditionalAt, spelled, List.find?_cons, Conditional.keywords,
    hother _ _ (by decide : "skip" ≠ "while"),
    hother _ _ (by decide : "else" ≠ "while"), hother _ _ (by decide : "if" ≠ "while"), hstarts]
  cases startsWith ["while", "not"] (t :: ts) <;> rfl

namespace Statement

theorem classify_of_not_isControl {id : FormId} {conditional : Conditional}
    (hmatch : id.isUnmatchable = false) (hrecognised : id ≠ FormId.unrecognised)
    (hblock : id.isControl = false) :
    classify id conditional false = (conditional.role, .standard) := by
  simp only [FormId.isUnmatchable, Bool.or_eq_false_iff, beq_eq_false_iff_ne] at hmatch
  simp only [FormId.isControl, Bool.or_eq_false_iff, beq_eq_false_iff_ne] at hblock
  obtain ⟨⟨⟨⟨⟨hend, helse⟩, hbreak⟩, hcontinue⟩, hloop⟩, _⟩ := hblock
  simp [classify, hmatch, hend, helse, hbreak, hcontinue, hrecognised, hloop]

section First

variable {g : Grammar} {v : Version} {number : Nat} {line : String} {t : Token} {ts : List Token}

theorem read_eq_ofRecognition (hts : Token.significant (Token.tokenize line false) = t :: ts)
    (hcomment : Token.comment? (Token.tokenize line false) = none)
    (hr : (read g v number line).statement.isRecognised = true) :
    ∃ r, g.recognise? v (t :: ts) = some r ∧
      (read g v number line).statement = ofRecognition number line false r := by
  simp only [read, hts, hcomment, List.isEmpty_cons, Option.isSome_none, Bool.false_eq_true,
    if_false] at hr ⊢
  cases h : g.recognise? v (t :: ts) with
  | none =>
    rw [h] at hr
    simp [isRecognised, unrecognised] at hr
  | some r => exact ⟨r, rfl, rfl⟩

structure Starts (s : Statement) (role : Role) : Prop where
  role : s.role = role
  standard : s.isStandard = true
  commented : s.commented = false
  control : s.form.isControl = false

/-- A recognised line that starts with no control word is executed, and its conditional gives it its
role. -/
theorem role_of_front (hg : g.Lawful)
    (hts : Token.significant (Token.tokenize line false) = t :: ts)
    (hcomment : Token.comment? (Token.tokenize line false) = none)
    (hr : (read g v number line).statement.isRecognised = true) {role : Role}
    (hfront : ∀ (e : Entry) (c : Conditional), e.Lawful → e.Front (t :: ts) c →
      e.form.id.isControl = false ∧ c.role = role) :
    (read g v number line).statement.Starts role := by
  obtain ⟨r, hrecognise, hstatement⟩ := read_eq_ofRecognition hts hcomment hr
  obtain ⟨hmem, hfit⟩ := Recognition.of_recognise? hrecognise
  have hlawful := hg.lawful _ hmem
  obtain ⟨hblock, hrole⟩ := hfront _ _ hlawful (Entry.front_of_fit hfit hlawful.front)
  have hclass : classify r.entry.form.id r.fit.conditional false =
      (r.fit.conditional.role, .standard) :=
    classify_of_not_isControl (hg.matchable _ hmem) hlawful.recognised hblock
  have hkind : (ofRecognition number line false r).kind = .standard := congrArg Prod.snd hclass
  rw [hstatement]
  exact ⟨(congrArg Prod.fst hclass).trans hrole, by rw [isStandard, hkind]; rfl, rfl, hblock⟩

theorem role_of_first (hg : g.Lawful)
    (hts : Token.significant (Token.tokenize line false) = t :: ts)
    (hcomment : Token.comment? (Token.tokenize line false) = none) (hkind : t.kind ≠ .keyword)
    (htext : t.text ∉ controlWords) (hr : (read g v number line).statement.isRecognised = true) :
    (read g v number line).statement.Starts .plain := by
  refine role_of_front hg hts hcomment hr fun e c hlawful hfront => ?_
  cases hfront with
  | literal hpieces heq hliteral hc =>
    obtain ⟨rfl, rfl⟩ := List.cons.inj heq
    refine ⟨?_, by rw [hc]; rfl⟩
    rw [Bool.eq_false_iff]
    intro hblock
    exact htext (hliteral ▸ (hlawful.literal _ _ hpieces).2 hblock)
  | returnSlot hpieces hk hslot hc =>
    exact ⟨(hlawful.slot _ _ hpieces).1, hc ▸ ParamKind.conditionalAt_of_ne_keyword hkind⟩
  | slot hpieces hk hslot htakes hc => exact ⟨(hlawful.slot _ _ hpieces).1, by rw [hc]; rfl⟩
  | empty hpieces hc => exact absurd hpieces hlawful.nonempty

theorem role_of_while (hg : g.Lawful)
    (hts : Token.significant (Token.tokenize line false) = t :: ts)
    (hcomment : Token.comment? (Token.tokenize line false) = none)
    (ht : t.is .keyword "while" = true)
    (hr : (read g v number line).statement.isRecognised = true) :
    (read g v number line).statement.Starts .loop := by
  have hkeyword : t.kind = .keyword ∧ t.text = "while" := by simpa [Token.is] using ht
  refine role_of_front hg hts hcomment hr fun e c hlawful hfront => ?_
  cases hfront with
  | literal hpieces heq hliteral hc =>
    obtain ⟨rfl, rfl⟩ := List.cons.inj heq
    exact absurd (hliteral.symm.trans hkeyword.2) (hlawful.literal _ _ hpieces).1
  | returnSlot hpieces hk hslot hc =>
    exact ⟨(hlawful.slot _ _ hpieces).1, hc ▸ ParamKind.conditionalAt_of_while ht⟩
  | @slot index n ps kind hpieces hk hslot htakes hc =>
    -- A keyword is neither a value nor a label, so no other parameter takes it.
    exfalso
    have hvalue : t.startsValue = false := by
      simp [Token.startsValue, Token.is, hkeyword.1, TokenKind.isOperand]
    have hnot : ∀ u rest, (t :: ts).take n = u :: rest → u = t := by
      intro u rest htake
      cases n with
      | zero => cases htake
      | succ n => exact (List.cons.inj htake).1.symm
    cases kind <;> simp only [ParamKind.isReturnSlot, Bool.true_eq_false] at hslot
    case expression => exact (hlawful.slot _ _ hpieces).2 hk
    case labelName =>
      obtain ⟨u, hu, hlabel⟩ := htakes
      rw [hnot u [] hu, hkeyword.1] at hlabel
      cases hlabel
    case valueList =>
      obtain ⟨u, rest, hu, hstarts⟩ := Token.IsValueList.startsValue htakes
      rw [hnot u rest hu, hvalue] at hstarts
      cases hstarts
    all_goals
      obtain ⟨u, rest, hu, hstarts⟩ := Token.IsValue.startsValue htakes
      rw [hnot u rest hu, hvalue] at hstarts
      cases hstarts
  | empty hpieces hc => exact absurd hpieces hlawful.nonempty

end First

end Statement

end GameScript
