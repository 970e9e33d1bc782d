import Mathlib.Data.List.Perm.Subperm
import GameScript.Grammar.Json
import GameScript.Proofs.Statement.Reading

/-!
# Templates and the lines that fit them

A form that fits a line takes every token of it exactly once. `Fills` walks a template in display
order: a literal stands for one token with its text, a placeholder for the tokens of its parameter.

* `placeholders_perm`: the check of a table gives every parameter of a form exactly one placeholder.
* `fills_of_fitPieces`: while a template is fitted, each parameter is bound once and keeps what it
  was bound to, so that the pieces behind it do not change what it stands for.
* `recognised_line_is_filled`: the line that a command is read from is its template, filled with its
  parameters.
-/

namespace GameScript

/-! ## Placeholders -/

def Piece.index? : Piece → Option Nat
  | .literal _ => none
  | .slot index => some index

def placeholders (ps : List Piece) : List Nat := ps.filterMap Piece.index?

@[simp] theorem placeholders_literal (text : String) (ps : List Piece) :
    placeholders (.literal text :: ps) = placeholders ps := rfl

@[simp] theorem placeholders_slot (index : Nat) (ps : List Piece) :
    placeholders (.slot index :: ps) = index :: placeholders ps := rfl

theorem mem_placeholders {index : Nat} {ps : List Piece} :
    index ∈ placeholders ps ↔ .slot index ∈ ps := by
  induction ps with
  | nil => simp [placeholders]
  | cons p ps ih => cases p <;> simp [ih]

namespace Grammar

/-- What the check of the remaining pieces says about all placeholders. -/
theorem placeholders_of_checkPieces {f : Form} {ps : List Piece} {seen : List Nat}
    (h : checkPieces f ps seen = .ok ()) (hseen : seen.Nodup)
    (hlt : ∀ i ∈ seen, i < f.params.length) :
    (placeholders ps ++ seen).Nodup ∧ (∀ i ∈ placeholders ps ++ seen, i < f.params.length) ∧
      (placeholders ps ++ seen).length = f.params.length := by
  induction ps generalizing seen with
  | nil =>
    rw [checkPieces] at h
    split at h
    · next hlength => exact ⟨hseen, hlt, hlength⟩
    · cases h
  | cons p ps ih =>
    cases p with
    | literal text => exact ih h hseen hlt
    | slot index =>
      rw [checkPieces] at h
      split at h
      · cases h
      · next hindex =>
        split at h
        · cases h
        · next hnew =>
          have hall :=
            ih h (List.nodup_cons.mpr ⟨by simpa using hnew, hseen⟩) (by simpa using ⟨by omega, hlt⟩)
          have hperm : (placeholders (.slot index :: ps) ++ seen).Perm
              (placeholders ps ++ index :: seen) :=
            List.perm_middle.symm
          exact ⟨hperm.nodup_iff.mpr hall.1, fun i hi => hall.2.1 i (hperm.mem_iff.mp hi),
            hperm.length_eq.trans hall.2.2⟩

/-- In a form that passes the check every parameter has exactly one placeholder. -/
theorem placeholders_perm {f : Form} (h : check f = .ok ()) :
    (placeholders f.pieces).Perm (List.range f.params.length) := by
  have hall := placeholders_of_checkPieces h List.nodup_nil (by simp)
  rw [List.append_nil] at hall
  refine (List.subperm_of_subset hall.1 fun i hi => ?_).perm_of_length_le ?_
  · exact List.mem_range.mpr (hall.2.1 i hi)
  · rw [List.length_range]
    exact Nat.le_of_eq hall.2.2.symm

theorem check_reserved : ∀ f ∈ builtinForms, f.id ≤ FormId.lastReserved → check f = .ok () := by
  have htable : ∀ e ∈ builtinTable.entries, e.form.id ≤ FormId.lastReserved →
      checkPieces e.form e.pieces [] = .ok () := by decide +kernel
  intro f hf
  exact htable (.of f) (builtin_eq ▸ List.mem_map_of_mem hf)

theorem check_of_forM {forms : List Form} (h : forms.forM check = .ok ()) :
    ∀ f ∈ forms, check f = .ok () := by
  induction forms with
  | nil => simp
  | cons f forms ih =>
    have hcons : (f :: forms).forM check = (check f >>= fun _ => forms.forM check) := List.forM_cons
    rw [hcons] at h
    cases hf : check f with
    | error err =>
      rw [hf] at h
      cases h
    | ok u =>
      rw [hf] at h
      intro f' hf'
      rcases List.mem_cons.mp hf' with rfl | hmem
      · exact hf
      · exact ih h f' hmem

/-- The forms of a grammar that a table describes pass the check. -/
theorem check_of_ofJson {table : String} {g : Grammar} (h : ofJson table = .ok g) {e : Entry}
    (he : e ∈ g.candidates) :
    e ∈ g.entries ∧ e = Entry.of e.form ∧ check e.form = .ok () := by
  unfold ofJson at h
  split at h
  · cases h
  · next forms _ =>
    cases hchecked : forms.forM check with
    | error err =>
      rw [hchecked] at h
      cases h
    | ok u =>
      rw [hchecked] at h
      obtain rfl : ofForms (withReserved forms) = g := Except.ok.inj h
      have hentry := (List.mem_filter.mp (Entry.mem_of_mem_sort he)).1
      obtain ⟨f, hf, rfl⟩ := List.mem_map.mp hentry
      refine ⟨hentry, rfl, ?_⟩
      rcases List.mem_append.mp hf with hf | hf
      · exact check_of_forM hchecked f hf
      · obtain ⟨hmem, hreserved⟩ := List.mem_filter.mp hf
        rw [Bool.and_eq_true, decide_eq_true_eq] at hreserved
        exact check_reserved f hmem hreserved.1

end Grammar

/-! ## Filling a template -/

/-- The tokens are the template with its parameters filled in. -/
inductive Fills (parameters : List Parameter) : List Piece → List Token → Prop
  | nil : Fills parameters [] []
  | literal {text : String} {ps : List Piece} {t : Token} {ts : List Token} (htext : t.text = text)
      (hts : Fills parameters ps ts) : Fills parameters (.literal text :: ps) (t :: ts)
  | slot {index : Nat} {ps : List Piece} {p : Parameter} {ts : List Token}
      (hp : parameters[index]? = some p)
      (hts : Fills parameters ps ts) : Fills parameters (.slot index :: ps) (p.tokens ++ ts)

/-- The canonical tokens of a command have the texts of the tokens it was read from. -/
theorem Fills.map_text {parameters : List Parameter} {e : Entry} {ts : List Token}
    (h : Fills parameters e.pieces ts) :
    (e.fill parameters).map Token.text = ts.map Token.text := by
  rw [Entry.fill]
  generalize e.pieces = ps at h
  induction h with
  | nil => rfl
  | literal htext _ ih =>
    rw [List.flatMap_cons, List.map_append, ih, ← htext]
    rfl
  | slot hp _ ih =>
    rw [List.flatMap_cons, List.map_append, ih, List.map_append]
    dsimp only
    rw [hp]
    rfl

namespace Entry

theorem slots_bind_of_ne {m : Fit} {index i : Nat} (h : i ≠ index) (ts : List Token) :
    (m.bind index ts).slots[i]? = m.slots[i]? :=
  List.getElem?_set_ne (Ne.symm h)

/-- The parameters that the remaining pieces do not show stay as they are. -/
theorem Fits.slots_eq {f : Form} {ps : List Piece} {ts : List Token} {m m' : Fit}
    (h : Fits f ps ts m m') {i : Nat} (hi : i ∉ placeholders ps) : m'.slots[i]? = m.slots[i]? := by
  induction h with
  | nil => rfl
  | literal _ ih => exact ih hi
  | slot _ _ _ _ _ ih =>
    rw [placeholders_slot, List.mem_cons, not_or] at hi
    exact (ih hi.2).trans (slots_bind_of_ne hi.1 _)

/-- The remaining tokens are the remaining pieces with the parameters filled in. -/
theorem Fits.fills {f : Form} {ps : List Piece} {ts : List Token} {m m' : Fit}
    (h : Fits f ps ts m m') (hlength : m.slots.length = f.params.length)
    (hps : (placeholders ps).Nodup) : Fills (m'.parameters f) ps ts := by
  induction h with
  | nil => exact .nil
  | literal _ ih => exact .literal rfl (ih hlength hps)
  | slot hkind _ _ _ hrest ih =>
    rw [placeholders_slot, List.nodup_cons] at hps
    refine .slot (Fit.parameters_getElem? hkind ?_) (ih (by simpa [Fit.bind] using hlength) hps.2)
    rw [hrest.slots_eq hps.1]
    exact (slots_bind (hlength ▸ kindAt?_lt hkind) _).trans (if_pos rfl)

/-- A form that fits takes all tokens, each of them once. -/
theorem fills_of_fit {e : Entry} {ts : List Token} {m : Fit} (hfit : e.fit? ts = some m)
    (hps : (placeholders e.pieces).Nodup) : Fills (m.parameters e.form) e.pieces ts :=
  (fits_of_fitPieces? hfit).fills (by simp [Fit.empty]) hps

end Entry

/-- There is one parameter for each declared one, of the declared kind. -/
theorem Recognition.kinds {g : Grammar} {v : Version} {ts : List Token} {r : Recognition}
    (h : g.recognise? v ts = some r) :
    (r.fit.parameters r.entry.form).map Parameter.kind = r.entry.form.params.map ParamDecl.kind :=
  Fit.kinds_parameters (binds h).length

/-- A command that a line is read as consumes every token of the line exactly once, for every
grammar that a table describes, every release and every line. The command is read with one of the
forms of the grammar, and has one parameter for each that the form declares, of the declared kind.
The template has one placeholder for each of them, in any order, and walking it in display order,
with the texts of the literals and the tokens of the parameters, gives the line. -/
theorem recognised_line_is_filled {table : String} {g : Grammar} (hg : Grammar.ofJson table = .ok g)
    (v : Version) (number : Nat) (line : String) {ts : List Token}
    (hts : Token.significant (Token.tokenize line false) = ts) (hne : ts ≠ []) {r : Recognition}
    (hr : g.recognise? v ts = some r) {s : Statement}
    (hs : (Statement.read g v number line).statement = s) :
    r.entry ∈ g.entries ∧
    s = Statement.ofRecognition number line (Token.comment? (Token.tokenize line false)).isSome r ∧
    s.parameters.map Parameter.kind = r.entry.form.params.map ParamDecl.kind ∧
    (placeholders r.entry.form.pieces).Perm (List.range r.entry.form.params.length) ∧
    Fills s.parameters r.entry.form.pieces ts ∧
    (r.entry.fill s.parameters).map Token.text = ts.map Token.text := by
  have hmem := (Recognition.of_recognise? hr).1
  obtain ⟨hentry, hof, hcheck⟩ := Grammar.check_of_ofJson hg hmem
  have hpieces : r.entry.pieces = r.entry.form.pieces := congrArg Entry.pieces hof
  have hperm := Grammar.placeholders_perm hcheck
  have hread : s = Statement.ofRecognition number line
      (Token.comment? (Token.tokenize line false)).isSome r := by
    rw [← hs, Statement.read]
    simp only [hts, hr]
    rw [if_neg (by simpa using hne)]
  have hparameters : s.parameters = r.fit.parameters r.entry.form := by rw [hread]; rfl
  have hfills : Fills s.parameters r.entry.pieces ts := by
    rw [hparameters]
    refine Entry.fills_of_fit (Recognition.of_recognise? hr).2 ?_
    rw [hpieces]
    exact hperm.nodup_iff.mpr List.nodup_range
  refine ⟨hentry, hread, ?_, hperm, hpieces ▸ hfills, hfills.map_text⟩
  rw [hparameters]
  exact Recognition.kinds hr

theorem Grammar.ofJson_of_forms {table : String} {f : Form} (hforms : formsOfJson? table = some [f])
    (hcheck : check f = .ok ()) : ofJson table = .ok (.ofForms (withReserved [f])) := by
  have hall : [f].forM check = .ok () := by
    show check f >>= (fun _ => pure ()) = _
    rw [hcheck]
    rfl
  rw [ofJson, hforms]
  dsimp only
  rw [hall]
  rfl

/-- A table with one command that shows its parameters in the opposite order. -/
def swappedTable : String :=
  "\x7b\"syntaxes\": [\x7b\"id\": 200, \"template\": \"move $1 to $0\", " ++
    "\"params\": [\x7b\"type\": \"Value\"\x7d, \x7b\"type\": \"Var\"\x7d]\x7d]\x7d"

def swappedForm : Form := .simple 200 "move $1 to $0" [.value, .var]

/-- A line that is commented out consumes its tokens, with the second parameter before the first
one. -/
theorem swappedTable_filled : ∃ g r ts s, Grammar.ofJson swappedTable = .ok g ∧
    Token.significant (Token.tokenize "* move $a to  -5" false) = ts ∧ ts ≠ [] ∧
    g.recognise? .albionPrelude ts = some r ∧
    (Statement.read g .albionPrelude 1 "* move $a to  -5").statement = s ∧
    s.commented = true ∧ s.parameters.map Parameter.kind = r.entry.form.params.map ParamDecl.kind ∧
    (r.entry.fill s.parameters).map Token.text = ["move", "$a", "to", "-", "5"] := by
  have htable : Grammar.ofJson swappedTable = .ok (.ofForms (Grammar.withReserved [swappedForm])) :=
    Grammar.ofJson_of_forms (by decide +kernel) (by decide +kernel)
  have htexts : (Token.significant (Token.tokenize "* move $a to  -5" false)).map Token.text =
      ["move", "$a", "to", "-", "5"] := by decide +kernel
  have hcomment : (Token.comment? (Token.tokenize "* move $a to  -5" false)).isSome = true := by
    decide +kernel
  have hfits : ((Grammar.ofForms (Grammar.withReserved [swappedForm])).recognise? .albionPrelude
      (Token.significant (Token.tokenize "* move $a to  -5" false))).isSome =
        true := by decide +kernel
  obtain ⟨r, hr⟩ := Option.isSome_iff_exists.mp hfits
  have hne : Token.significant (Token.tokenize "* move $a to  -5" false) ≠ [] := by
    intro hnil
    rw [hnil] at htexts
    cases htexts
  obtain ⟨-, hs, hkinds, -, -, hfill⟩ :=
    recognised_line_is_filled htable .albionPrelude 1 "* move $a to  -5" rfl hne hr rfl
  refine ⟨_, r, _, _, htable, rfl, hne, hr, rfl, ?_, hkinds, hfill.trans htexts⟩
  rw [hs]
  exact hcomment

end GameScript
