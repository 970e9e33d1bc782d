import GameScript.Proofs.Statement.Filling

/-!
# Conditionals and the return slots that spell them

What is done with the result of a command is written in its return slot: keywords, a variable and an
equals sign, or nothing. `Conditional.Spelled` says so without the reader of lines, and no tokens
spell two conditionals (`Conditional.Spelled.unique`).

The reader takes the conditional from the return slot that it meets last, and looks the slot up by
its kind later. Where a command has one return slot the two are the same
(`conditional_spelled_by_return_slot`). A table may declare two of them, and then they need not
agree (`twoSlots_disagree`).
-/

namespace GameScript

namespace Conditional

theorem eq_of_keywords_eq {c d : Conditional} (hc : c.keywords ≠ []) (h : c.keywords = d.keywords) :
    c = d := by
  cases c <;> cases d <;> first | rfl | exact absurd rfl hc | (simp [keywords] at h)

/-- No tokens spell two conditionals. -/
theorem Spelled.unique {c d : Conditional} {ts : List Token} (hc : Spelled c ts)
    (hd : Spelled d ts) : c = d := by
  cases hc with
  | keywords hne hkind htext =>
    cases hd with
    | keywords _ _ htext' => exact eq_of_keywords_eq hne (htext.symm.trans htext')
    | assign hv _ =>
      rw [hkind _ (by simp)] at hv
      cases hv
    | discard => exact absurd htext.symm hne
  | assign hv _ =>
    cases hd with
    | keywords _ hkind _ =>
      rw [hkind _ (by simp)] at hv
      cases hv
    | assign => rfl
  | discard =>
    cases hd with
    | keywords hne _ htext => exact absurd htext.symm hne
    | discard => rfl

end Conditional

/-! ## Commands with one return slot -/

def Form.SingleReturnSlot (f : Form) : Prop :=
  ∀ (i j : Nat) (k l : ParamKind), f.kindAt? i = some k → f.kindAt? j = some l →
    k.isReturnSlot = true →
    l.isReturnSlot = true → i = j

def Fit.Reports (f : Form) (m : Fit) : Prop :=
  ∀ (i : Nat) (kind : ParamKind) (ts : List Token), f.kindAt? i = some kind →
    kind.isReturnSlot = true →
    m.slots[i]? = some (some ts) → kind.allows m.conditional = true ∧ m.conditional.Spelled ts

namespace Entry

/-- Fitting the remaining pieces keeps the conditional that of the return slot. -/
theorem Fits.reports {f : Form} (hone : f.SingleReturnSlot) {ps : List Piece} {ts : List Token}
    {m m' : Fit} (hfit : Fits f ps ts m m') (hlength : m.slots.length = f.params.length)
    (h : m.Reports f) : m'.Reports f := by
  induction hfit with
  | nil => exact h
  | literal _ ih => exact ih hlength h
  | @slot index kind c run ts ps m m' hkind _ hreturn hplain _ ih =>
    refine ih (by simpa [Fit.bind] using hlength) ?_
    intro i k us hk hslot hi
    rw [slots_bind (hlength ▸ kindAt?_lt hkind)] at hi
    split at hi
    · -- The slot is the one just bound.
      next heq =>
      obtain rfl := Option.some.inj ((heq ▸ hk).symm.trans hkind)
      obtain rfl := Option.some.inj (Option.some.inj hi)
      exact (hreturn hslot).2.symm
    · next hne =>
      rw [hplain (Bool.eq_false_iff.mpr fun hc => hne (hone i index k kind hk hkind hslot hc))]
      exact h i k us hk hslot hi

theorem reports_of_fit {e : Entry} (hone : e.form.SingleReturnSlot) {ts : List Token} {m : Fit}
    (hfit : e.fit? ts = some m) : m.Reports e.form := by
  refine (fits_of_fitPieces? hfit).reports hone (by simp [Fit.empty]) ?_
  intro i kind us _ _ hi
  rw [Fit.empty, List.getElem?_map, Option.map_eq_some_iff] at hi
  obtain ⟨_, _, hi⟩ := hi
  cases hi

end Entry

/-- At most one of the parameters of a recognised command is a return slot only if its form has at
most one. -/
theorem Recognition.singleReturnSlot {g : Grammar} {v : Version} {ts : List Token} {r : Recognition}
    (h : g.recognise? v ts = some r)
    (hone : (r.fit.parameters r.entry.form).countP (fun p => p.kind.isReturnSlot) ≤ 1) :
    r.entry.form.SingleReturnSlot := by
  have hcount : (r.entry.form.params.map ParamDecl.kind).countP ParamKind.isReturnSlot ≤ 1 := by
    rw [← Recognition.kinds h, List.countP_map]
    exact hone
  have hkind : ∀ i, r.entry.form.kindAt? i = (r.entry.form.params.map ParamDecl.kind)[i]? := by
    intro i
    rw [Form.kindAt?, List.getElem?_map]
  intro i j k l hk hl hreturn hreturn'
  rw [hkind] at hk hl
  exact eq_of_countP_le_one hcount hk hl hreturn hreturn'

/-- What the return slot of a statement says. Without one, the result is discarded. -/
structure Statement.ObeysReturnSlot (s : Statement) : Prop where
  discards : s.returnSlot? = none → s.conditional = .discard
  allows : ∀ p, s.returnSlot? = some p → p.kind.allows s.conditional = true
  spells : ∀ p, s.returnSlot? = some p → ∀ c : Conditional, c.Spelled p.tokens ↔ c = s.conditional
  assigns : ∀ p, s.returnSlot? = some p → s.conditional = .assign →
    ∃ v e, p.tokens = [v, e] ∧ v.kind = .var ∧ e.is .binaryOp "=" = true ∧ s.assigned? = some v

/-- A statement without parameters and without a conditional discards its result. -/
theorem Statement.obeysReturnSlot_of_nil {s : Statement} (hparameters : s.parameters = [])
    (hconditional : s.conditional = .discard) : s.ObeysReturnSlot := by
  have hnone : s.returnSlot? = none := by rw [Statement.returnSlot?, hparameters, List.find?_nil]
  refine ⟨fun _ => hconditional, ?_, ?_, ?_⟩ <;> intro p hp <;> rw [hnone] at hp <;> cases hp

/-- A recognised command with one return slot at most obeys it, if its template shows all
parameters. -/
theorem Recognition.obeysReturnSlot {g : Grammar} {v : Version} {ts : List Token} {r : Recognition}
    (h : g.recognise? v ts = some r)
    (hshown : ∀ i < r.entry.form.params.length, i ∈ placeholders r.entry.pieces)
    (hone : r.entry.form.SingleReturnSlot) (number : Nat) (line : String) (commented : Bool) :
    (Statement.ofRecognition number line commented r).ObeysReturnSlot := by
  have hfit := (Recognition.of_recognise? h).2
  have hreports := Entry.reports_of_fit hone hfit
  have hkinds := Recognition.kinds h
  have hslot : ∀ p, (Statement.ofRecognition number line commented r).returnSlot? = some p →
      p.kind.allows r.fit.conditional = true ∧ r.fit.conditional.Spelled p.tokens := by
    intro p hp
    have hreturn : p.kind.isReturnSlot = true :=
      List.find?_some (p := fun q : Parameter => q.kind.isReturnSlot) hp
    obtain ⟨i, hi⟩ := List.getElem?_of_mem (List.mem_of_find?_eq_some hp)
    replace hi : (r.fit.parameters r.entry.form)[i]? = some p := hi
    have hkind : r.entry.form.kindAt? i = some p.kind := by
      rw [Form.kindAt?, ← List.getElem?_map, ← hkinds, List.getElem?_map, hi]
      rfl
    obtain ⟨us, hus⟩ :=
      Recognition.bound h (mem_placeholders.mp (hshown i (Entry.kindAt?_lt hkind)))
    have hp : p = ⟨p.kind, us⟩ :=
      Option.some.inj (hi.symm.trans (Fit.parameters_getElem? hkind hus))
    rw [show p.tokens = us from congrArg Parameter.tokens hp]
    exact hreports i p.kind us hkind hreturn hus
  refine ⟨fun hnone => ?_, fun p hp => (hslot p hp).1,
    fun p hp c => ⟨fun hc => hc.unique (hslot p hp).2, ?_⟩, ?_⟩
  · -- No piece of the template is a return slot.
    refine (Entry.fits_of_fitPieces? hfit).conditional_eq fun piece _ => ?_
    cases piece with
    | literal text => rfl
    | slot index =>
      rw [Entry.isReturnPiece]
      cases hkind : r.entry.form.kindAt? index with
      | none => rfl
      | some kind =>
        rw [Form.kindAt?, ← List.getElem?_map, ← hkinds] at hkind
        obtain ⟨p, hp, rfl⟩ := List.mem_map.mp (List.mem_of_getElem? hkind)
        exact Bool.eq_false_iff.mpr (List.find?_eq_none.mp hnone p hp)
  · rintro rfl
    exact (hslot p hp).2
  · intro p hp hassign
    replace hassign : r.fit.conditional = .assign := hassign
    have hspelled := (hslot p hp).2
    rw [hassign] at hspelled
    obtain ⟨v, e, htokens, hv, he⟩ := hspelled.assigned
    refine ⟨v, e, htokens, hv, he, ?_⟩
    rw [Statement.assigned?, if_pos (by exact hassign), hp, Option.bind_some, htokens]
    rfl

/-- A line has one return slot at most, and obeys it. -/
theorem Statement.read_obeysReturnSlot {g : Grammar} (hg : g.Lawful) (v : Version) (number : Nat)
    (line : String) :
    (read g v number line).statement.ObeysReturnSlot ∧
      (read g v number line).statement.parameters.countP (fun p => p.kind.isReturnSlot) ≤ 1 := by
  rcases read_cases g v number line with h | h | h | ⟨commented, r, hr, h⟩ <;> rw [h]
  · exact ⟨obeysReturnSlot_of_nil rfl rfl, Nat.zero_le _⟩
  · exact ⟨obeysReturnSlot_of_nil rfl rfl, Nat.zero_le _⟩
  · exact ⟨obeysReturnSlot_of_nil rfl rfl, Nat.zero_le _⟩
  · have hlawful := hg.lawful _ (Recognition.of_recognise? hr).1
    have hone : (r.fit.parameters r.entry.form).countP (fun p => p.kind.isReturnSlot) ≤ 1 := by
      have hsingle := hlawful.single
      rw [← Function.comp_def ParamKind.isReturnSlot ParamDecl.kind, ← List.countP_map,
        ← Recognition.kinds hr, List.countP_map] at hsingle
      exact hsingle
    exact ⟨Recognition.obeysReturnSlot hr (fun i hi => mem_placeholders.mpr (hlawful.shown i hi))
      (Recognition.singleReturnSlot hr hone) number line commented, hone⟩

/-- The conditional of a command is the one that its return slot spells, for every grammar that a
table describes, every release and every line, if at most one parameter of the command is a return
slot. The kind of the slot allows the conditional; an assigned variable is the first token of the
slot; without a return slot the result is discarded. -/
theorem conditional_spelled_by_return_slot {table : String} {g : Grammar}
    (hg : Grammar.ofJson table = .ok g) (v : Version) (number : Nat) (line : String) {s : Statement}
    (hs : (Statement.read g v number line).statement = s)
    (hone : s.parameters.countP (fun p => p.kind.isReturnSlot) ≤ 1) : s.ObeysReturnSlot := by
  subst hs
  rcases Statement.read_cases g v number line with hread | hread | hread | ⟨commented, r, hr, hread⟩
  · rw [hread]
    exact Statement.obeysReturnSlot_of_nil rfl rfl
  · rw [hread]
    exact Statement.obeysReturnSlot_of_nil rfl rfl
  · rw [hread]
    exact Statement.obeysReturnSlot_of_nil rfl rfl
  · rw [hread] at hone ⊢
    obtain ⟨-, hof, hcheck⟩ := Grammar.check_of_ofJson hg (Recognition.of_recognise? hr).1
    have hpieces : r.entry.pieces = r.entry.form.pieces := congrArg Entry.pieces hof
    refine Recognition.obeysReturnSlot hr (fun i hi => ?_) (Recognition.singleReturnSlot hr hone)
      number line commented
    rw [hpieces, (Grammar.placeholders_perm hcheck).mem_iff]
    exact List.mem_range.mpr hi

/-- A table whose only command shows its return slot last. -/
def trailingSlotTable : String :=
  "\x7b\"syntaxes\": [\x7b\"id\": 200, \"template\": \"poll $1 $0\", " ++
    "\"params\": [\x7b\"type\": \"RetVarIf\"\x7d, \x7b\"type\": \"Value\"\x7d]\x7d]\x7d"

def trailingSlotForm : Form := .simple 200 "poll $1 $0" [.retVarIf, .value]

/-- A table whose only command has two return slots. -/
def twoSlotTable : String :=
  "\x7b\"syntaxes\": [\x7b\"id\": 200, \"template\": \"$0 poll $1\", " ++
    "\"params\": [\x7b\"type\": \"RetVar\"\x7d, \x7b\"type\": \"RetVar\"\x7d]\x7d]\x7d"

def twoSlotForm : Form := .simple 200 "$0 poll $1" [.retVar, .retVar]

/-- A conditional at the end of a line is the one of the return slot. -/
theorem trailingSlot_spelled : ∃ g s, Grammar.ofJson trailingSlotTable = .ok g ∧
    (Statement.read g .albionPrelude 1 "* poll $a while not").statement = s ∧
    s.parameters.countP (fun p => p.kind.isReturnSlot) ≤ 1 ∧ s.conditional = .whileNot ∧
    s.ObeysReturnSlot := by
  have htable : Grammar.ofJson trailingSlotTable =
      .ok (.ofForms (Grammar.withReserved [trailingSlotForm])) :=
    Grammar.ofJson_of_forms (by decide +kernel) (by decide +kernel)
  have hread : ∀ s,
      s = (Statement.read (.ofForms (Grammar.withReserved [trailingSlotForm])) .albionPrelude 1
        "* poll $a while not").statement →
      s.parameters.countP (fun p => p.kind.isReturnSlot) ≤ 1 ∧ s.conditional = .whileNot := by
    rintro _ rfl
    decide +kernel
  exact ⟨_, _, htable, rfl, (hread _ rfl).1, (hread _ rfl).2,
    conditional_spelled_by_return_slot htable .albionPrelude 1 "* poll $a while not" rfl
      (hread _ rfl).1⟩

/-- Of two return slots the last one decides, and the first one is looked up: the line assigns to no
variable. -/
theorem twoSlots_disagree : ∃ g s, Grammar.ofJson twoSlotTable = .ok g ∧
    (Statement.read g .albionPrelude 1 "poll $x =").statement = s ∧
    s.conditional = .assign ∧ s.returnSlot? = some ⟨.retVar, []⟩ ∧ s.assigned? = none ∧
    ¬ s.ObeysReturnSlot := by
  have htable : Grammar.ofJson twoSlotTable = .ok (.ofForms (Grammar.withReserved [twoSlotForm])) :=
    Grammar.ofJson_of_forms (by decide +kernel) (by decide +kernel)
  have hread : ∀ s,
      s = (Statement.read (.ofForms (Grammar.withReserved [twoSlotForm])) .albionPrelude 1
        "poll $x =").statement →
      s.conditional = .assign ∧ s.returnSlot? = some ⟨.retVar, []⟩ ∧ s.assigned? = none := by
    rintro _ rfl
    decide +kernel
  refine ⟨_, _, htable, rfl, (hread _ rfl).1, (hread _ rfl).2.1, (hread _ rfl).2.2,
    fun hobeys => ?_⟩
  obtain ⟨_, _, htokens, -⟩ := hobeys.assigns _ (hread _ rfl).2.1 (hread _ rfl).1
  cases htokens

end GameScript
