import GameScript.Proofs.Statement.Fit

/-!
# Recognising renamed lines

A form looks at the kinds of the tokens of a line and at its words; which variables, numbers,
strings and objects stand there does not matter. So a line whose operands are exchanged for others
of their kinds is recognised as the same command, with the exchanged operands in its parameters:
`Grammar.recognise?_map`.
-/

namespace GameScript

/-- The token is exchanged for one of its kind, and it is one of the `words` if and only if the new
one is. -/
structure Token.Renames (σ : Token → Token) (words : List String) (t : Token) : Prop where
  kind : (σ t).kind = t.kind
  text : t.kind.isOperand = false → (σ t).text = t.text
  word : ∀ w ∈ words, (σ t).text = w ↔ t.text = w

namespace Token.Renames

variable {σ : Token → Token} {words : List String} {t : Token}

theorem is_eq (h : t.Renames σ words) {kind : TokenKind} (hkind : kind.isOperand = false)
    (text : String) :
    (σ t).is kind text = t.is kind text := by
  unfold Token.is
  rw [h.kind]
  by_cases ht : t.kind = kind
  · rw [h.text (ht ▸ hkind)]
  · have hne : (t.kind == kind) = false := by simpa using ht
    simp [hne]

theorem beq_eq (h : t.Renames σ words) {w : String} (hw : w ∈ words) :
    ((σ t).text == w) = (t.text == w) := by
  rw [Bool.eq_iff_iff, beq_iff_eq, beq_iff_eq]
  exact h.word w hw

end Token.Renames

def Fit.map (σ : Token → Token) (m : Fit) : Fit :=
  ⟨m.conditional, m.slots.map (Option.map (List.map σ))⟩

theorem Fit.parameters_map (σ : Token → Token) (m : Fit) (f : Form) :
    (m.map σ).parameters f = (m.parameters f).map fun p => ⟨p.kind, p.tokens.map σ⟩ := by
  simp only [Fit.parameters, Fit.map, List.zip_map_right, List.map_map]
  refine List.map_congr_left fun p _ => ?_
  obtain ⟨decl, slot⟩ := p
  cases slot <;> rfl

def Recognition.map (σ : Token → Token) (r : Recognition) : Recognition :=
  { r with fit := r.fit.map σ }

def Entry.words (e : Entry) : List String := e.pieces.filterMap Piece.literal?

section

variable {σ : Token → Token} {words : List String}

namespace ParamKind

variable {ts : List Token}

theorem startsWith_map (h : ∀ t ∈ ts, t.Renames σ words) (ws : List String) :
    startsWith ws (ts.map σ) = startsWith ws ts := by
  induction ts generalizing ws with
  | nil => cases ws <;> rfl
  | cons t ts ih =>
    cases ws with
    | nil => rfl
    | cons w ws =>
      simp only [List.map_cons, startsWith]
      rw [(h t (by simp)).is_eq rfl, ih fun u hu => h u (by simp [hu])]

theorem conditionalAt_map (h : ∀ t ∈ ts, t.Renames σ words) :
    conditionalAt (ts.map σ) = conditionalAt ts := by
  unfold conditionalAt
  simp only [startsWith_map h]
  split
  · rfl
  · rcases ts with _ | ⟨v, _ | ⟨e, ts⟩⟩
    · rfl
    · rfl
    · simp only [List.map_cons]
      rw [(h v (by simp)).kind, (h e (by simp)).is_eq rfl]

theorem returnLength?_map (h : ∀ t ∈ ts, t.Renames σ words) (kind : ParamKind) :
    kind.returnLength? (ts.map σ) = kind.returnLength? ts := by
  rw [returnLength?, conditionalAt_map h, returnLength?]

theorem valueLength?_map (h : ∀ t ∈ ts, t.Renames σ words) :
    valueLength? (ts.map σ) = valueLength? ts := by
  cases ts with
  | nil => rfl
  | cons t ts =>
    simp only [List.map_cons, valueLength?]
    rw [(h t (by simp)).is_eq rfl, (h t (by simp)).kind]
    cases ts with
    | nil => rfl
    | cons n ts =>
      simp only [List.map_cons]
      rw [(h n (by simp)).kind]

theorem valueListLength?_map (h : ∀ t ∈ ts, t.Renames σ words) :
    valueListLength? (ts.map σ) = valueListLength? ts := by
  fun_induction valueListLength? ts with
  | case1 ts hnone => rw [valueListLength?, valueLength?_map h, hnone]
  | case2 ts n hn t rest hdrop hcomma ih =>
    have hmap : (ts.map σ).drop n = σ t :: rest.map σ := by
      rw [← List.map_drop, hdrop, List.map_cons]
    have hmem : ∀ u ∈ t :: rest, u ∈ ts := fun u hu => List.mem_of_mem_drop (hdrop ▸ hu)
    have hσ : (σ t).isComma = true := ((h t (hmem t (by simp))).is_eq rfl ",").trans hcomma
    rw [valueListLength?, valueLength?_map h, hn]
    dsimp only
    split
    · next u us heq =>
      obtain ⟨rfl, rfl⟩ := List.cons.inj (hmap.symm.trans heq)
      rw [if_pos hσ, ih fun u hu => h u (hmem u (by simp [hu]))]
    · next heq =>
      rw [hmap] at heq
      cases heq
  | case3 ts n hn t rest hdrop hcomma =>
    have hmap : (ts.map σ).drop n = σ t :: rest.map σ := by
      rw [← List.map_drop, hdrop, List.map_cons]
    have hmem : t ∈ ts := List.mem_of_mem_drop (i := n) (by simp [hdrop])
    have hσ : (σ t).isComma ≠ true := fun hc => hcomma (((h t hmem).is_eq rfl ",").symm.trans hc)
    rw [valueListLength?, valueLength?_map h, hn]
    dsimp only
    split
    · next u us heq =>
      obtain ⟨rfl, rfl⟩ := List.cons.inj (hmap.symm.trans heq)
      rw [if_neg hσ]
    · rfl
  | case4 ts n hn hdrop =>
    have hmap : (ts.map σ).drop n = [] := by rw [← List.map_drop, hdrop, List.map_nil]
    rw [valueListLength?, valueLength?_map h, hn]
    dsimp only
    split
    · next u us heq =>
      rw [hmap] at heq
      cases heq
    · rfl

theorem expressionLength?_map (h : ∀ t ∈ ts, t.Renames σ words) {stop : Option String}
    (hstop : ∀ w, stop = some w → w ∈ words) :
    expressionLength? stop (ts.map σ) = expressionLength? stop ts := by
  have hwhile : (ts.map σ).takeWhile (fun t => stop != some t.text) =
      (ts.takeWhile fun t => stop != some t.text).map σ := by
    induction ts with
    | nil => rfl
    | cons t ts ih =>
      have ht : (stop != some (σ t).text) = (stop != some t.text) := by
        rw [Bool.eq_iff_iff, bne_iff_ne, bne_iff_ne]
        cases stop with
        | none => simp
        | some w =>
          have hw := (h t (by simp)).word w (hstop w rfl)
          simp only [ne_eq, Option.some.injEq, eq_comm (a := w), hw]
      rw [List.map_cons, List.takeWhile_cons, List.takeWhile_cons, ht,
        ih fun u hu => h u (by simp [hu])]
      split <;> rfl
  have hall : ((ts.takeWhile fun t => stop != some t.text).map σ).all
      (fun t => t.kind.isOperand || t.kind.isOperator) =
      (ts.takeWhile fun t => stop != some t.text).all fun t => t.kind.isOperand ||
      t.kind.isOperator := by
    rw [List.all_map, Bool.eq_iff_iff, List.all_eq_true, List.all_eq_true]
    refine forall_congr' fun t => imp_congr_right fun ht => ?_
    rw [Function.comp, (h t ((List.takeWhile_sublist _).subset ht)).kind]
  unfold expressionLength?
  dsimp only
  rw [hwhile, hall, List.isEmpty_map, List.length_map]

theorem takeLength?_map (h : ∀ t ∈ ts, t.Renames σ words) {stop : Option String}
    (hstop : ∀ w, stop = some w → w ∈ words) (kind : ParamKind) :
    kind.takeLength? stop (ts.map σ) = kind.takeLength? stop ts := by
  cases kind <;> simp only [takeLength?]
  case expression => exact expressionLength?_map h hstop
  case valueList => exact valueListLength?_map h
  case labelName =>
    cases ts with
    | nil => rfl
    | cons t ts =>
      simp only [List.map_cons]
      rw [(h t (by simp)).kind]
  all_goals exact valueLength?_map h

end ParamKind

theorem Fit.map_bind (m : Fit) (index : Nat) (ts : List Token) :
    (m.bind index ts).map σ = (m.map σ).bind index (ts.map σ) := by
  simp [Fit.map, Fit.bind, List.map_set]

theorem Fit.map_empty (f : Form) : (Fit.empty f).map σ = Fit.empty f := by
  simp [Fit.map, Fit.empty]

namespace Entry

variable {ts : List Token} {m : Fit}

/-- Pieces whose words are kept fit exchanged tokens as they fit the tokens. -/
theorem fitPieces?_map {f : Form} {ps : List Piece} (h : ∀ t ∈ ts, t.Renames σ words)
    (hps : ∀ w, .literal w ∈ ps → w ∈ words) :
    fitPieces? f ps (ts.map σ) (m.map σ) = (fitPieces? f ps ts m).map (Fit.map σ) := by
  induction ps generalizing ts m with
  | nil => cases ts <;> rfl
  | cons p ps ih =>
    have hrest : ∀ w, .literal w ∈ ps → w ∈ words := fun w hw => hps w (by simp [hw])
    cases p with
    | literal text =>
      cases ts with
      | nil => rfl
      | cons t ts =>
        have ht := (h t (by simp)).beq_eq (hps text (by simp))
        simp only [List.map_cons, fitPieces?]
        rw [ht, ih (fun u hu => h u (by simp [hu])) hrest]
        split <;> rfl
    | slot index =>
      have hdrop : ∀ n, ∀ t ∈ ts.drop n, t.Renames σ words :=
        fun n t ht => h t (List.mem_of_mem_drop ht)
      have hstop : ∀ w, ps.findSome? Piece.literal? = some w → w ∈ words := by
        intro w hw
        obtain ⟨q, hq, hliteral⟩ := List.exists_of_findSome?_eq_some hw
        cases q with
        | literal text =>
          cases hliteral
          exact hrest _ hq
        | slot => cases hliteral
      simp only [fitPieces?]
      split
      · rfl
      · next kind _ =>
        split
        · rw [ParamKind.returnLength?_map h]
          cases kind.returnLength? ts with
          | none => rfl
          | some found =>
            dsimp only
            rw [← List.map_drop, ← List.map_take, ← ih (hdrop _) hrest]
            congr 1
            simp only [Fit.map, Fit.bind, List.map_set, Option.map_some]
        · rw [ParamKind.takeLength?_map h hstop]
          cases kind.takeLength? (ps.findSome? Piece.literal?) ts with
          | none => rfl
          | some n =>
            dsimp only
            rw [← List.map_drop, ← List.map_take, ← ih (hdrop _) hrest, Fit.map_bind]

theorem fit?_map {e : Entry} (h : ∀ t ∈ ts, t.Renames σ e.words) :
    e.fit? (ts.map σ) = (e.fit? ts).map (Fit.map σ) := by
  unfold fit?
  rw [← fitPieces?_map h ?_, Fit.map_empty]
  intro w hw
  exact List.mem_filterMap.mpr ⟨_, hw, rfl⟩

theorem Fits.exists_literal {f : Form} {ps : List Piece} {m' : Fit} (h : Fits f ps ts m m')
    {w : String} (hw : .literal w ∈ ps) : ∃ t ∈ ts, t.text = w := by
  induction h with
  | nil => cases hw
  | @literal t _ _ _ _ _ ih =>
    rcases List.mem_cons.mp hw with heq | hw
    · exact ⟨t, by simp, (Piece.literal.inj heq).symm⟩
    · obtain ⟨u, hu, htext⟩ := ih hw
      exact ⟨u, by simp [hu], htext⟩
  | slot _ _ _ _ _ ih =>
    obtain ⟨u, hu, htext⟩ := ih (by simpa using hw)
    exact ⟨u, by simp [hu], htext⟩

/-- A form only fits lines with all its words. -/
theorem exists_of_fit? {e : Entry} (h : e.fit? ts = some m) {w : String}
    (hw : w ∈ e.words) : ∃ t ∈ ts, t.text = w := by
  obtain ⟨p, hp, hliteral⟩ := List.mem_filterMap.mp hw
  cases p with
  | slot => cases hliteral
  | literal text =>
    cases hliteral
    exact (fits_of_fitPieces? h).exists_literal hp

end Entry

/-- If every form fits the exchanged tokens as it fits the tokens, so does the grammar. -/
theorem Grammar.recognise?_map {g : Grammar} {ts : List Token} (v : Version)
    (h : ∀ e ∈ g.candidates, e.fit? (ts.map σ) = (e.fit? ts).map (Fit.map σ)) :
    g.recognise? v (ts.map σ) = (g.recognise? v ts).map (Recognition.map σ) := by
  have hfind : ∀ (es : List Entry) (known : Entry → Bool) (supported : Bool), es ⊆ g.candidates →
      (es.findSome? fun e => if known e then (e.fit? (ts.map σ)).map fun m => ⟨e, m, supported⟩
        else none) =
        (es.findSome? fun e => if known e then (e.fit? ts).map fun m => ⟨e, m, supported⟩
          else none).map
          (Recognition.map σ) := by
    intro es known supported hes
    induction es with
    | nil => rfl
    | cons e es ih =>
      rw [List.findSome?_cons, List.findSome?_cons, ih fun x hx => hes (by simp [hx]),
        h e (hes (by simp))]
      cases known e with
      | false => simp
      | true => cases e.fit? ts <;> rfl
  have hknown := hfind g.candidates (fun e => e.form.supports v) true fun _ h => h
  have hall := hfind g.candidates (fun _ => true) false fun _ h => h
  simp only [if_true] at hall
  simp only [recognise?, Option.orElse_eq_orElse, Option.orElse_eq_or, hknown, hall]
  cases g.candidates.findSome? fun e => if e.form.supports v then (e.fit? ts).map fun m =>
    (⟨e, m, true⟩ : Recognition)
    else none <;> rfl

end

end GameScript
