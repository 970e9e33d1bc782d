import Mathlib.Data.List.Sort
import GameScript.Proofs.Statement.Reading

/-!
# Which form a line is read as

A grammar sorts its forms once, and a line is read as the first of them that fits and that the
release knows, or else as the first one that fits. Told without the sorted list: among the forms
that fit, the line is read as the best one (`Grammar.Selects`), where forms are compared by
`Entry.Preferred`.

* Sorting is stable: with their places of declaration the candidates are in order (`candidates_eq`,
  `Entry.Precedes`).
* The first one that fits in an ordered list comes before all others that fit (`exists_first`).
* `line_read_as_best_form` puts both together for every line, with what is reported about it.
-/

namespace GameScript

/-! ## The order of candidates -/

namespace Entry

/-- The entry is preferred to another one, each with its place of declaration: one that the release
knows to one that it does not know, then one without an expression, then one with more literals,
then the one declared earlier. -/
def Preferred (v : Version) (a : Entry) (i : Nat) (b : Entry) (j : Nat) : Prop :=
  (a.form.supports v = true ∧ b.form.supports v = false) ∨
  (a.form.supports v = b.form.supports v ∧
    ((a.form.hasExpression = false ∧ b.form.hasExpression = true) ∨
    (a.form.hasExpression = b.form.hasExpression ∧
      (b.literalCount < a.literalCount ∨ (a.literalCount = b.literalCount ∧ i < j)))))

theorem Preferred.asymm {v : Version} {a b : Entry} {i j : Nat} (h : a.Preferred v i b j) :
    ¬ b.Preferred v j a i := by
  unfold Preferred at *
  rcases h with ⟨ha, hb⟩ | ⟨hsupports, ⟨ha, hb⟩ | ⟨hexpression, h⟩⟩
  · simp [ha, hb]
  · simp [hsupports, ha, hb]
  · simp only [hsupports, hexpression]
    cases b.form.supports v <;> cases b.form.hasExpression <;> simp <;> omega

/-- The entry is tried before another one: on account of their templates, or by its place of
declaration. -/
def Precedes (x y : Entry × Nat) : Prop :=
  x.1.before y.1 = true ∧ (y.1.before x.1 = true → x.2 ≤ y.2)

instance : DecidableRel Precedes := fun x y =>
  inferInstanceAs (Decidable (x.1.before y.1 = true ∧ (y.1.before x.1 = true → x.2 ≤ y.2)))

theorem before_iff {a b : Entry} : a.before b = true ↔
    (a.form.hasExpression = false ∧ b.form.hasExpression = true) ∨
      (a.form.hasExpression = b.form.hasExpression ∧ b.literalCount ≤ a.literalCount) := by
  unfold before
  cases a.form.hasExpression <;> cases b.form.hasExpression <;> simp

theorem before_total (a b : Entry) : a.before b = true ∨ b.before a = true := by
  simp only [before_iff]
  cases a.form.hasExpression <;> cases b.form.hasExpression <;> simp <;> omega

theorem before_trans {a b c : Entry} (hab : a.before b = true) (hbc : b.before c = true) :
    a.before c = true := by
  rw [before_iff] at *
  cases ha : a.form.hasExpression <;> cases hb : b.form.hasExpression <;>
    cases hc : c.form.hasExpression <;>
    simp_all <;> omega

instance : Std.Total Precedes where
  total x y := by
    unfold Precedes
    rcases before_total x.1 y.1 with h | h <;> cases hxy : x.1.before y.1 <;>
      cases hyx : y.1.before x.1 <;>
      simp_all <;> omega

instance : IsTrans (Entry × Nat) Precedes where
  trans x y z hxy hyz := by
    refine ⟨before_trans hxy.1 hyz.1, fun hzx => ?_⟩
    exact Nat.le_trans (hxy.2 (before_trans hyz.1 hzx)) (hyz.2 (before_trans hzx hxy.1))

/-- Among entries that the release treats alike, the one that is tried first is preferred. -/
theorem Precedes.preferred {v : Version} {a b : Entry} {i j : Nat} (h : Precedes (a, i) (b, j))
    (hsupports : a.form.supports v = b.form.supports v) (hji : j ≠ i) : a.Preferred v i b j := by
  obtain ⟨hbefore, hplace⟩ := h
  refine .inr ⟨hsupports, ?_⟩
  rcases before_iff.mp hbefore with h | ⟨hexpression, hcount⟩
  · exact .inl h
  · refine .inr ⟨hexpression, ?_⟩
    rcases Nat.lt_or_eq_of_le hcount with hlt | heq
    · exact .inl hlt
    · have hij : i ≤ j := hplace (before_iff.mpr (.inr ⟨hexpression.symm, Nat.le_of_eq heq.symm⟩))
      exact .inr ⟨heq.symm, Nat.lt_of_le_of_ne hij (Ne.symm hji)⟩

/-- Inserting an entry that was declared before all others. -/
theorem insert_map_fst {x : Entry × Nat} {l : List (Entry × Nat)} (h : ∀ y ∈ l, x.2 ≤ y.2) :
    insert x.1 (l.map Prod.fst) = (l.orderedInsert Precedes x).map Prod.fst := by
  induction l with
  | nil => rfl
  | cons y l ih =>
    have hprecedes : Precedes x y ↔ x.1.before y.1 = true :=
      ⟨fun hxy => hxy.1, fun hxy => ⟨hxy, fun _ => h y (by simp)⟩⟩
    rw [List.map_cons, insert, List.orderedInsert_cons]
    by_cases hxy : x.1.before y.1 = true
    · rw [if_pos hxy, if_pos (hprecedes.mpr hxy)]
      rfl
    · rw [if_neg hxy, if_neg (fun hc => hxy (hprecedes.mp hc)), ih fun z hz => h z (by simp [hz])]
      rfl

/-- Sorting keeps the order of declaration where templates tie. -/
theorem sort_map_fst {l : List (Entry × Nat)} (h : l.Pairwise fun x y => x.2 ≤ y.2) :
    sort (l.map Prod.fst) = (l.insertionSort Precedes).map Prod.fst := by
  induction l with
  | nil => rfl
  | cons x l ih =>
    obtain ⟨hx, hl⟩ := List.pairwise_cons.mp h
    have hsort : sort ((x :: l).map Prod.fst) = insert x.1 (sort (l.map Prod.fst)) := rfl
    rw [hsort, ih hl, insert_map_fst, List.insertionSort_cons]
    exact fun y hy => hx y ((List.mem_insertionSort _).mp hy)

end Entry

namespace Grammar

variable {forms : List Form} {v : Version} {ts : List Token}

def declared (forms : List Form) : List (Entry × Nat) :=
  (ofForms forms).entries.zipIdx.filter fun x => !x.1.form.id.isUnmatchable

theorem candidates_eq (forms : List Form) :
    (ofForms forms).candidates = ((declared forms).insertionSort Entry.Precedes).map Prod.fst := by
  have hplaces : (declared forms).Pairwise fun x y => x.2 ≤ y.2 := by
    refine List.Pairwise.filter _ (List.Pairwise.of_map Prod.snd (fun _ _ h => h) ?_)
    rw [List.zipIdx_map_snd]
    exact List.pairwise_le_range'
  have hentries : (declared forms).map Prod.fst =
      (ofForms forms).entries.filter fun e => !e.form.id.isUnmatchable := by
    conv_rhs => rw [← List.zipIdx_map_fst 0 (ofForms forms).entries, List.filter_map]
    rfl
  rw [← Entry.sort_map_fst hplaces, hentries]
  rfl

/-- The entry that was declared at a place can be the command of a line with these tokens. -/
structure Matches (g : Grammar) (ts : List Token) (i : Nat) (e : Entry) (m : Fit) : Prop where
  declared : g.entries[i]? = some e
  matchable : e.form.id.isUnmatchable = false
  fits : e.fit? ts = some m

/-- The entry is the best of all that can be the command of a line with these tokens. -/
structure Selects (g : Grammar) (v : Version) (ts : List Token) (i : Nat) (e : Entry) (m : Fit) :
    Prop where
  fits : g.Matches ts i e m
  preferred : ∀ j f n, g.Matches ts j f n → j ≠ i → e.Preferred v i f j

theorem mem_declared {e : Entry} {i : Nat} :
    (e, i) ∈ declared forms ↔ (ofForms forms).entries[i]? = some e ∧
    e.form.id.isUnmatchable = false := by
  simp [declared, List.mem_zipIdx_iff_getElem?]

theorem matches_iff {i : Nat} {e : Entry} {m : Fit} :
    (ofForms forms).Matches ts i e m ↔ (e, i) ∈ declared forms ∧ e.fit? ts = some m := by
  rw [mem_declared]
  exact ⟨fun h => ⟨⟨h.declared, h.matchable⟩, h.fits⟩, fun h => ⟨h.1.1, h.1.2, h.2⟩⟩

theorem Selects.unique {g : Grammar} {i j : Nat} {e f : Entry} {m n : Fit}
    (h : g.Selects v ts i e m) (h' : g.Selects v ts j f n) : j = i := by
  by_contra hji
  exact (h.preferred j f n h'.fits hji).asymm (h'.preferred i e m h.fits (Ne.symm hji))

/-- If an entry that fits is known to the release, then so is the best one. -/
theorem Selects.supports {g : Grammar} {i j : Nat} {e f : Entry} {m n : Fit}
    (h : g.Selects v ts i e m) (hf : g.Matches ts j f n) (hknown : f.form.supports v = true) :
    e.form.supports v = true := by
  by_cases hji : j = i
  · subst hji
    have hef : e = f := Option.some_inj.mp (h.fits.declared.symm.trans hf.declared)
    rw [hef, hknown]
  · rcases h.preferred j f n hf hji with ⟨he, -⟩ | ⟨hsupports, -⟩
    · exact he
    · rw [hsupports, hknown]

/-- In an ordered list, the first entry that passes is tried before all others that pass. -/
theorem exists_first {β : Type} {l : List (Entry × Nat)} {pass : Entry → Option β} {b : β}
    (hl : l.Pairwise Entry.Precedes) (h : (l.map Prod.fst).findSome? pass = some b) :
    ∃ x ∈ l, pass x.1 = some b ∧ ∀ y ∈ l, (pass y.1).isSome = true → y = x ∨
      Entry.Precedes x y := by
  induction l with
  | nil => cases h
  | cons x l ih =>
    obtain ⟨hx, hl⟩ := List.pairwise_cons.mp hl
    rw [List.map_cons, List.findSome?_cons] at h
    cases hpass : pass x.1 with
    | some c =>
      rw [hpass] at h
      refine ⟨x, List.mem_cons_self, hpass.trans h, fun y hy _ => ?_⟩
      exact (List.mem_cons.mp hy).imp_right (hx y)
    | none =>
      rw [hpass] at h
      obtain ⟨z, hz, hb, hfirst⟩ := ih hl h
      refine ⟨z, List.mem_cons_of_mem x hz, hb, fun y hy hy' => ?_⟩
      rcases List.mem_cons.mp hy with rfl | hy
      · simp [hpass] at hy'
      · exact hfirst y hy hy'

/-- The first candidate that passes, with its place of declaration. -/
theorem exists_first_candidate {β : Type} {pass : Entry → Option β} {b : β}
    (h : (ofForms forms).candidates.findSome? pass = some b) :
    ∃ e i, (e, i) ∈ declared forms ∧ pass e = some b ∧
      ∀ f j, (f, j) ∈ declared forms → (pass f).isSome = true → j ≠ i → Entry.Precedes (e, i)
      (f, j) := by
  rw [candidates_eq] at h
  obtain ⟨⟨e, i⟩, he, hb, hfirst⟩ := exists_first (List.pairwise_insertionSort _ _) h
  refine ⟨e, i, (List.mem_insertionSort _).mp he, hb, fun f j hf hpass hji => ?_⟩
  rcases hfirst (f, j) ((List.mem_insertionSort _).mpr hf) hpass with heq | hprecedes
  · cases heq
    exact absurd rfl hji
  · exact hprecedes

theorem mem_candidates {e : Entry} : e ∈ (ofForms forms).candidates ↔
    ∃ i, (e, i) ∈ declared forms := by
  simp [candidates_eq]

/-- A line is recognised as the best entry. -/
theorem selects_of_recognise? {r : Recognition} (h : (ofForms forms).recognise? v ts = some r) :
    ∃ i, (ofForms forms).Selects v ts i r.entry r.fit ∧ r.supported = r.entry.form.supports v := by
  simp only [recognise?, Option.orElse_eq_orElse, Option.orElse_eq_or, Option.or_eq_some_iff] at h
  rcases h with h | ⟨hunknown, h⟩
  · obtain ⟨e, i, he, hr, hfirst⟩ := exists_first_candidate h
    split at hr
    · next hsupports =>
      obtain ⟨m, hm, rfl⟩ := Option.map_eq_some_iff.mp hr
      refine ⟨i, ⟨matches_iff.mpr ⟨he, hm⟩, fun j f n hf hji => ?_⟩, hsupports.symm⟩
      obtain ⟨hf, hn⟩ := matches_iff.mp hf
      cases hknown : f.form.supports v with
      | false => exact .inl ⟨hsupports, hknown⟩
      | true =>
        exact (hfirst f j hf (by simp [hknown, hn]) hji).preferred (hsupports.trans hknown.symm) hji
    · cases hr
  · -- No entry that fits is known to the release.
    have hnone : ∀ f j n, (ofForms forms).Matches ts j f n → f.form.supports v = false := by
      intro f j n hf
      obtain ⟨hf, hn⟩ := matches_iff.mp hf
      have hfail := List.findSome?_eq_none_iff.mp hunknown f (mem_candidates.mpr ⟨j, hf⟩)
      cases hknown : f.form.supports v with
      | false => rfl
      | true => simp [hknown, hn] at hfail
    obtain ⟨e, i, he, hr, hfirst⟩ := exists_first_candidate h
    obtain ⟨m, hm, rfl⟩ := Option.map_eq_some_iff.mp hr
    have hmatches : (ofForms forms).Matches ts i e m := matches_iff.mpr ⟨he, hm⟩
    refine ⟨i, ⟨hmatches, fun j f n hf hji => ?_⟩, (hnone e i m hmatches).symm⟩
    have hprecedes := hfirst f j (matches_iff.mp hf).1 (by simp [hf.fits]) hji
    exact hprecedes.preferred ((hnone e i m hmatches).trans (hnone f j n hf).symm) hji

/-- A line is not recognised if no entry fits it. -/
theorem recognise?_eq_none_iff :
    (ofForms forms).recognise? v ts = none ↔ ∀ i e m, ¬ (ofForms forms).Matches ts i e m := by
  constructor
  · intro h i e m he
    simp only [recognise?, Option.orElse_eq_orElse, Option.orElse_eq_or, Option.or_eq_none_iff] at h
    obtain ⟨he, hm⟩ := matches_iff.mp he
    have hfail := List.findSome?_eq_none_iff.mp h.2 e (mem_candidates.mpr ⟨i, he⟩)
    simp [hm] at hfail
  · intro h
    cases hr : (ofForms forms).recognise? v ts with
    | none => rfl
    | some r =>
      obtain ⟨i, hselects, -⟩ := selects_of_recognise? hr
      exact absurd hselects.fits (h i r.entry r.fit)

end Grammar

/-! ## Reading a line -/

def Reading.blank (number : Nat) (line : String) (commented : Bool) : Reading :=
  ⟨if commented then .comment number line else .nop number, none⟩

def Reading.unfit (number : Nat) (line : String) (commented : Bool) : Reading :=
  if commented then ⟨.comment number line, none⟩
  else ⟨.unrecognised number line, some (.of .unrecognised number (Text.trim line))⟩

namespace Statement

variable {g : Grammar} {v : Version} {number : Nat} {line : String} {ts : List Token}
  {r : Recognition} {commented : Bool}

theorem unterminated?_eq_none_iff :
    unterminated? ts = none ↔ ∀ t ∈ ts, t.kind = .gameObject →
    t.text.toList.getLast? = some '}' := by
  simp [unterminated?]

theorem read_eq_blank (hts : Token.significant (Token.tokenize line false) = [])
    (hcommented : (Token.comment? (Token.tokenize line false)).isSome = commented) :
    read g v number line = Reading.blank number line commented := by
  simp [read, Reading.blank, hts, hcommented]

theorem read_eq_unfit (hts : Token.significant (Token.tokenize line false) = ts) (hne : ts ≠ [])
    (hcommented : (Token.comment? (Token.tokenize line false)).isSome = commented)
    (h : g.recognise? v ts = none) :
    read g v number line = Reading.unfit number line commented := by
  have hempty : ts.isEmpty = false := by simpa using hne
  simp only [read, Reading.unfit, hts, hcommented, hempty, h, Bool.false_eq_true, if_false]
  rfl

theorem ofRecognition_ne_unfit (hmatchable : r.entry.form.id.isUnmatchable = false)
    {found : Option Diagnostic} (hfound : ∀ d ∈ found, d.code ≠ Problem.unrecognised.code) :
    ⟨ofRecognition number line commented r, found⟩ ≠ Reading.unfit number line commented := by
  intro h
  cases commented with
  | false =>
    have hd := congrArg Reading.diagnostic h
    exact hfound _ hd rfl
  | true =>
    have hform : r.entry.form.id = FormId.comment := congrArg (fun x => x.statement.form) h
    simp [FormId.isUnmatchable, hform] at hmatchable

/-- What is reported about a recognised line: an unterminated object, or else that the release does
not know it. -/
theorem problem?_eq_some_iff {p : Problem} : problem? v ts r = some p ↔
    (∃ t, unterminated? ts = some t ∧ p = .objectUnterminated t.text) ∨
      (unterminated? ts = none ∧ r.supported = false ∧ p = .versionUnsupported v) := by
  unfold problem?
  cases unterminated? ts <;> cases r.supported <;> simp [eq_comm]

theorem code_ne_of_problem? {p : Problem} (h : problem? v ts r = some p) :
    p.code ≠ Problem.unrecognised.code := by
  rcases problem?_eq_some_iff.mp h with ⟨t, -, rfl⟩ | ⟨-, -, rfl⟩ <;> simp [Problem.code]

/-- When a recognised line is reported as one of other releases. -/
theorem code_read_iff (hts : Token.significant (Token.tokenize line false) = ts) (hne : ts ≠ [])
    (hcommented : (Token.comment? (Token.tokenize line false)).isSome = commented)
    (h : g.recognise? v ts = some r) :
    (read g v number line).diagnostic.map (·.code) = some "SYNTAX_VERSION_UNSUPPORTED" ↔
      commented = false ∧ unterminated? ts = none ∧ r.supported = false := by
  rw [read_eq_of_fits hts hne hcommented h]
  unfold problem?
  cases commented <;> cases unterminated? ts <;> cases r.supported <;>
    simp [Diagnostic.of, Problem.code]

end Statement

/-- Every line is read as the best form of those that fit it: one that the release knows rather than
one that it does not know, then one without an expression, then one with more literals, then the one
declared first. A line that no form fits is a comment or reported as unrecognised, and a line that
only other releases know is reported as such unless it is commented out or has an unterminated
object. -/
theorem line_read_as_best_form (forms : List Form) (v : Version) (number : Nat) (line : String) :
    let g := Grammar.ofForms forms
    let ts := Token.significant (Token.tokenize line false)
    let commented := (Token.comment? (Token.tokenize line false)).isSome
    let reading := Statement.read g v number line
    (ts = [] → reading = Reading.blank number line commented) ∧
    (ts ≠ [] →
      ((∃ i e m, g.Matches ts i e m) →
        ∃ i e m, g.Selects v ts i e m ∧ (∀ j f n, g.Selects v ts j f n → j = i) ∧
          reading.statement = Statement.ofRecognition number line commented ⟨e, m,
            e.form.supports v⟩) ∧
      (reading = Reading.unfit number line commented ↔ ∀ i e m, ¬ g.Matches ts i e m) ∧
      (reading.diagnostic.map (·.code) = some "SYNTAX_VERSION_UNSUPPORTED" ↔
        commented = false ∧ (∀ t ∈ ts, t.kind = .gameObject → t.text.toList.getLast? = some '}') ∧
          (∃ i e m, g.Matches ts i e m) ∧ ∀ i e m, g.Matches ts i e m →
          e.form.supports v = false)) := by
  intro g ts commented reading
  refine ⟨fun hts => Statement.read_eq_blank hts rfl, fun hne => ?_⟩
  cases hr : g.recognise? v ts with
  | none =>
    have hnone : ∀ i e m, ¬ g.Matches ts i e m := Grammar.recognise?_eq_none_iff.mp hr
    have hreading : reading = Reading.unfit number line commented :=
      Statement.read_eq_unfit rfl hne rfl hr
    refine ⟨?_, ⟨fun _ => hnone, fun _ => hreading⟩, ?_⟩
    · rintro ⟨i, e, m, h⟩
      exact absurd h (hnone i e m)
    · constructor
      · intro hcode
        rw [hreading, Reading.unfit] at hcode
        cases hc : commented <;> simp [hc, Diagnostic.of, Problem.code] at hcode
      · rintro ⟨-, -, ⟨i, e, m, h⟩, -⟩
        exact absurd h (hnone i e m)
  | some r =>
    obtain ⟨i, hselects, hsupported⟩ := Grammar.selects_of_recognise? hr
    have hreading : reading = _ := Statement.read_eq_of_fits rfl hne rfl hr
    have hentry : r = ⟨r.entry, r.fit, r.entry.form.supports v⟩ := by rw [← hsupported]
    refine ⟨fun _ => ⟨i, r.entry, r.fit, hselects, fun j f n h => hselects.unique h, ?_⟩, ?_, ?_⟩
    · rw [hreading, ← hentry]
    · refine ⟨fun h => absurd (hreading.symm.trans h) ?_,
        fun h => absurd hselects.fits (h i r.entry r.fit)⟩
      refine Statement.ofRecognition_ne_unfit hselects.fits.matchable fun d hd => ?_
      obtain ⟨p, hp, rfl⟩ := Option.map_eq_some_iff.mp hd
      refine Statement.code_ne_of_problem? (?_ : Statement.problem? v ts r = some p)
      split at hp
      · cases hp
      · exact hp
    · rw [Statement.code_read_iff rfl hne rfl hr, Statement.unterminated?_eq_none_iff, hsupported]
      refine and_congr_right fun _ => and_congr_right fun _ => ⟨fun hunknown => ?_, fun h => ?_⟩
      · refine ⟨⟨i, r.entry, r.fit, hselects.fits⟩, fun j f n hf => ?_⟩
        by_contra hknown
        rw [hselects.supports hf (by simpa using hknown)] at hunknown
        cases hunknown
      · exact h.2 i r.entry r.fit hselects.fits

def wordlessForm : Form := .simple 200 "" []

/-- A bare comment mark is a comment even if a form fits it, for lines without significant tokens
are never compared with the forms of the grammar. -/
theorem bareMark_is_comment : Text.trim "*" ≠ "" ∧
      (∃ m, (Grammar.ofForms [wordlessForm]).Matches
        (Token.significant (Token.tokenize "*" false)) 0
        (.of wordlessForm) m) ∧
      (Statement.read (.ofForms [wordlessForm]) .albionPrelude 1 "*").statement.isComment = true :=
  ⟨by decide, ⟨.empty wordlessForm, rfl, rfl, by decide +kernel⟩, by decide +kernel⟩

end GameScript
