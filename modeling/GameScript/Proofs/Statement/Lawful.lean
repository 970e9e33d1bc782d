import GameScript.Grammar.Builtin
import GameScript.Proofs.Statement.Fit
import GameScript.Proofs.Statement.Renaming

/-!
# Lawful tables of forms

`Entry.Lawful` collects what the compiler relies on in a table of forms: where return slots stand,
which forms have none, and which words a line of the block structure starts with. The built-in table
is lawful (`builtin_lawful`).
-/

namespace GameScript

namespace FormId

/-- The forms that leave the order of the lines for a label, a caller or the end of the script. -/
def isTransfer (id : FormId) : Bool :=
  id == gotoLabel || id == gosub || id == endsub || id == leaveScript

/-- The forms whose own keyword opens, closes or leaves a block, or leaves the order of the
lines. -/
def isControl (id : FormId) : Bool :=
  id == endBlock || id == elseBlock || id == breakLoop || id == continueLoop ||
  id.isLoopShorthand || id.isTransfer

def hasMeaning (id : FormId) : Bool :=
  id.isControl || id == hiddenJump || id == defineLabel || id == dim

def shorthandKinds (id : FormId) : List ParamKind :=
  if id == dim then [.var, .valueList]
  else if id == forLoop then [.var, .number, .number]
  else if id == forLoopStep then [.var, .number, .number, .number]
  else if id == forEach then [.var, .var]
  else [.var, .var, .var]

end FormId

def looksLikeValue (text : String) : Bool :=
  match text.toList with
  | '$' :: _ | '\'' :: _ | '{' :: _ | '[' :: _ :: _ => true
  | c :: _ => c.isDigit || text == "null"
  | [] => false

def controlWords : List String :=
  ["end", "else", "break", "continue", "for", "goto", "gosub", "endsub", "return"]

/-- What the compiler relies on in a form. -/
structure Entry.Lawful (e : Entry) : Prop where
  recognised : e.form.id ≠ FormId.unrecognised
  /-- Only the first piece is a return slot. -/
  front : ∀ p ∈ e.pieces.tail, isReturnPiece e.form p = false
  /-- Every parameter is shown. -/
  shown : ∀ i < e.form.params.length, .slot i ∈ e.pieces
  /-- There is one return slot at most. -/
  single : e.form.params.countP (fun p => p.kind.isReturnSlot) ≤ 1
  /-- A form with a meaning has no return slot. -/
  meaning : e.form.id.hasMeaning = true → ∀ p ∈ e.form.params, p.kind.isReturnSlot = false
  /-- A jump names a label. -/
  label : e.form.id = FormId.gotoLabel ∨ e.form.id = FormId.gosub →
    e.form.kindAt? 0 = some .labelName
  shorthand : e.form.id.isShorthand = true → e.form.params.map (·.kind) = e.form.id.shorthandKinds
  /-- There is one expression at most. -/
  expression : e.form.params.countP (fun p => p.kind == .expression) ≤ 1
  /-- A word that could be a value stands beside one that could not. -/
  word : ∀ text ∈ e.words, looksLikeValue text = true → "random" ∈ e.words
  literal : ∀ text rest, e.pieces = .literal text :: rest → text ≠ "while" ∧
    (e.form.id.isControl = true → text ∈ controlWords)
  slot : ∀ i rest, e.pieces = .slot i :: rest → e.form.id.isControl = false ∧
    e.form.kindAt? i ≠ some .expression
  nonempty : e.pieces ≠ []

structure Grammar.Lawful (g : Grammar) : Prop where
  matchable : ∀ e ∈ g.candidates, e.form.id.isUnmatchable = false
  lawful : ∀ e ∈ g.candidates, e.Lawful

/-- A test for lawful forms. -/
def Entry.isLawful (e : Entry) : Bool :=
  e.form.id != FormId.unrecognised &&
  (e.pieces.tail.all fun p => !isReturnPiece e.form p) &&
  ((List.range e.form.params.length).all fun i => e.pieces.contains (.slot i)) &&
  decide (e.form.params.countP (fun p => p.kind.isReturnSlot) ≤ 1) &&
  (!e.form.id.hasMeaning || e.form.params.all fun p => !p.kind.isReturnSlot) &&
  (!(e.form.id == FormId.gotoLabel || e.form.id == FormId.gosub) ||
    e.form.kindAt? 0 == some .labelName) &&
  (!e.form.id.isShorthand || e.form.params.map (·.kind) == e.form.id.shorthandKinds) &&
  decide (e.form.params.countP (fun p => p.kind == .expression) ≤ 1) &&
  (!(e.words.any looksLikeValue) || e.words.contains "random") &&
  match e.pieces with
  | .literal text :: _ => text != "while" && (!e.form.id.isControl || controlWords.contains text)
  | .slot i :: _ => !e.form.id.isControl && e.form.kindAt? i != some .expression
  | [] => false

theorem Entry.lawful_of_isLawful {e : Entry} (h : e.isLawful = true) : e.Lawful := by
  simp only [isLawful, Bool.and_eq_true, Bool.or_eq_true, Bool.not_eq_true', List.all_eq_true,
    bne_iff_ne, ne_eq, decide_eq_true_eq, beq_iff_eq, List.contains_iff_mem, List.mem_range] at h
  obtain ⟨⟨⟨⟨⟨⟨⟨⟨⟨hrecognised, hfront⟩, hshown⟩, hsingle⟩, hmeaning⟩, hlabel⟩, hshorthand⟩,
    hexpression⟩, hword⟩, hfirst⟩ := h
  refine ⟨hrecognised, hfront, hshown, hsingle, ?_, ?_, ?_, hexpression, ?_, ?_, ?_, ?_⟩
  · intro hid
    simpa [hid] using hmeaning
  · intro hid
    rcases hlabel with hne | hkind
    · simp only [Bool.or_eq_false_iff, beq_eq_false_iff_ne, ne_eq] at hne
      rcases hid with hid | hid
      · exact absurd hid hne.1
      · exact absurd hid hne.2
    · exact hkind
  · intro hid
    simpa [hid] using hshorthand
  · intro text htext hvalue
    rcases hword with hnone | hrandom
    · rw [List.any_eq_false] at hnone
      exact absurd hvalue (hnone text htext)
    · exact hrandom
  · intro text rest hpieces
    rw [hpieces] at hfirst
    simp only [bne_iff_ne, ne_eq, Bool.and_eq_true, Bool.or_eq_true, Bool.not_eq_true',
      List.contains_iff_mem] at hfirst
    refine ⟨hfirst.1, fun hid => ?_⟩
    rcases hfirst.2 with hne | hmem
    · rw [hid] at hne
      cases hne
    · exact hmem
  · intro i rest hpieces
    rw [hpieces] at hfirst
    simpa using hfirst
  · intro hpieces
    rw [hpieces] at hfirst
    cases hfirst

theorem Entry.Lawful.dim {e : Entry} (h : e.Lawful) (hid : e.form.id = FormId.dim) :
    e.form.kindAt? 0 = some .var := by
  have hkinds := h.shorthand (by rw [hid]; rfl)
  have hhead := congrArg (fun kinds : List ParamKind => kinds[0]?) hkinds
  rw [hid, List.getElem?_map] at hhead
  exact hhead

/-- The parameters of a loop are single values. -/
theorem Entry.Lawful.loop {e : Entry} (h : e.Lawful) (hid : e.form.id.isLoopShorthand = true) :
    ∀ p ∈ e.form.params, p.kind = .var ∨ p.kind = .number := by
  intro p hp
  have hkinds := h.shorthand (by simp [FormId.isShorthand, hid])
  have hmem : p.kind ∈ e.form.id.shorthandKinds := by
    rw [← hkinds]
    exact List.mem_map_of_mem hp
  have hall : ∀ id : FormId, id.isLoopShorthand = true → ∀ kind ∈ id.shorthandKinds, kind = .var ∨
      kind = .number := by
    intro id hid
    simp only [FormId.isLoopShorthand, Bool.or_eq_true, beq_iff_eq] at hid
    rcases hid with ((rfl | rfl) | rfl) | rfl <;> decide
  exact hall _ hid _ hmem

theorem Entry.mem_of_mem_insert {e x : Entry} {es : List Entry} (h : e ∈ x.insert es) :
    e = x ∨ e ∈ es := by
  induction es with
  | nil => simpa [insert] using h
  | cons y ys ih =>
    simp only [insert] at h
    split at h
    · simpa using h
    · rcases List.mem_cons.mp h with rfl | h
      · simp
      · rcases ih h with rfl | h
        · simp
        · simp [h]

theorem Entry.mem_of_mem_sort {e : Entry} {es : List Entry} (h : e ∈ sort es) : e ∈ es := by
  induction es with
  | nil => simp [sort] at h
  | cons y ys ih =>
    rcases mem_of_mem_insert h with rfl | h
    · simp
    · exact List.mem_cons_of_mem y (ih h)

/-! ## The built-in table -/

namespace Grammar

section

local instance : Coe String Piece := ⟨.literal⟩

local instance (n : Nat) : OfNat Piece n := ⟨.slot n⟩

/-- The pieces of the templates of the reserved commands. -/
def reservedPieces : List (List Piece) := [
  [], [], ["end"], ["else"], ["break"], ["continue"], [], [0], ["goto", "label", 0], ["gosub", 0],
  ["endsub"], ["return", 0], [0, 1], ["inc", 0, "="], ["dec", 0, "="],
  [0, "array", "alloc:", "size", "=", 1], [0, "size", "of", "array", 1], [0, 1, "[", 2, "]"],
  [0, "[", 1, "]", "=", 2], ["dim", 0, "=", 1], ["for", 0, "=", 1, "to", 2],
  ["for", 0, "=", 1, "to", 2, "step", 3], ["for", "each", 0, "in", "array", 1],
  ["for", "each", 0, "in", "array", 1, "using", "counter", 2]]

/-- The pieces of the templates of the other commands. -/
def gamePieces : List (List Piece) := [
  ["write", "to", "player", "logbook", 0], [0, "wait", 1, "ms"], [0, "get", "player", "ship"],
  [0, 1, "->", "get", "sector"], [0, 1, "->", "get", "name"], [0, "->", "set", "name", "to", 1],
  [0, 1, "->", "is", "docked"], [0, "random", "value", "from", "zero", "to", 1, "-", "1"],
  [0, 1, "->", "call", "script", 2], [0, 1, "->", "get", "owner", "race"],
  [0, "->", "set", "owner", "race", "to", 1],
  ["send", "incoming", "message", 0, "to", "player:", "display", "it", "=", 1],
  [0, "find", "ship:", "sector", "=", 1, "class", "or", "type", "=", 2],
  [0, 1, "->", "get", "true", "owner"], [0, "get", "script", "priority"],
  [0, 1, "->", "is", "of", "class", 2],
  [0, "create", "ship:", "type", "=", 1, "owner", "=", 2, "addto", "=", 3, "x", "=", 4, "y", "=",
    5, "z", "=", 6], [0, "->", "destruct:", "show", "no", "explosion", "=", 1],
  [0, "get", "sector", "from", "universe", "index:", "x", "=", 1, ",", "y", "=", 2],
  [0, "read", "text:", "page", "=", 1, "id", "=", 2], [0, 1, "->", "fly", "to", "sector", 2],
  [0, 1, "->", "get", "max", "upgrades", "for", "upgrade", 2],
  [0, 1, "->", "get", "maximum", "upgrades", "for", "upgrade", 2],
  [0, 1, "->", "get", "distance", "to", 2], [0, "->", "set", "relation", "against", 1, "to", 2],
  [0, 1, "->", "get", "money"], [0, "get", "player", "money"]]

end

theorem pieces_builtinForms : builtinForms.map Form.pieces = reservedPieces ++ gamePieces := by
  decide +kernel

/-- The built-in grammar with its templates cut beforehand. A script that is evaluated with it does
not cut them again. -/
def builtinTable : Grammar :=
  let entries := List.zipWith Entry.mk builtinForms (reservedPieces ++ gamePieces)
  ⟨entries, Entry.sort (entries.filter fun e => !e.form.id.isUnmatchable)⟩

theorem builtin_eq : builtin = builtinTable := by
  have hentries : builtinForms.map Entry.of =
      List.zipWith Entry.mk builtinForms (reservedPieces ++ gamePieces) := by
    rw [← pieces_builtinForms, List.zipWith_map_right, List.zipWith_self]
    rfl
  rw [builtin, ofForms, hentries]
  rfl

end Grammar

set_option maxRecDepth 20000 in
theorem isLawful_builtin : ∀ e ∈ Grammar.builtin.entries, e.form.id.isUnmatchable = true ∨
    e.isLawful = true := by
  rw [Grammar.builtin_eq]
  decide +kernel

/-- The built-in table is lawful. -/
theorem builtin_lawful : Grammar.builtin.Lawful := by
  have hmem : ∀ e ∈ Grammar.builtin.candidates, e ∈ Grammar.builtin.entries ∧
      e.form.id.isUnmatchable = false := by
    intro e he
    have hfilter := Entry.mem_of_mem_sort he
    rw [List.mem_filter] at hfilter
    exact ⟨hfilter.1, by simpa using hfilter.2⟩
  refine ⟨fun e he => (hmem e he).2, fun e he => Entry.lawful_of_isLawful ?_⟩
  rcases isLawful_builtin e (hmem e he).1 with h | h
  · rw [(hmem e he).2] at h
    cases h
  · exact h

end GameScript
