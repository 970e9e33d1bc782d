import GameScript.Layout.Print
import GameScript.Proofs.Statement.Rereading

/-!
# Formatting twice

Formatting a script that is formatted changes nothing (`format_idempotent`), if every line is read
as the same statement when it is displayed (`Steady`). The indentation is computed from what the
lines say, wherever they stand (`format_eq_printAll`), and the lines of the formatted script say the
same (`forall₂_format`).

A line that is not steady can change each time: the brackets of an index are written without blanks
inside, and then an index that is a name is read as a script object (`tightIndex_changes`).
-/

namespace GameScript

/-! ## What a line says -/

namespace Statement

def ofLine (g : Grammar) (v : Version) (line : String) : Statement :=
  (read g v 0 line).statement.bare

/-- The number of a line does not matter for what it says. -/
theorem ofLine_eq (g : Grammar) (v : Version) (number : Nat) (line : String) :
    ofLine g v line = (read g v number line).statement.bare := by
  have hread : ∀ number, (read g v number line).statement.bare =
      (Reading.ofCode g v number _ _ _).statement :=
    fun number => congrArg Reading.statement (bare_read g v number line)
  rw [ofLine, hread, hread, Reading.ofCode, Reading.ofCode]
  split
  · simp only [apply_ite Reading.statement]
  · rfl

theorem map_bare_readAll (g : Grammar) (v : Version) (lines : List String) :
    ((readAll g v lines).map (·.statement)).map bare = lines.map (ofLine g v) := by
  have hfst : (lines.zipIdx 1).map Prod.fst = lines := List.zipIdx_map_fst 1 lines
  conv => rhs; rw [← hfst]
  rw [readAll, List.map_map, List.map_map, List.map_map]
  exact List.map_congr_left fun p _ => (ofLine_eq g v p.2 p.1).symm

end Statement

namespace Layout

open Statement

def printAll (width : Nat) (statements : List Statement) : List String :=
  print width (statements.map (ofStatement (calledBy statements)))

theorem ofStatement_bare (called : Std.TreeSet String) (s : Statement) :
    ofStatement called s.bare = ofStatement called s := by
  have hlabel : (s.parameters.map Parameter.bare).head?.any (fun p => called.contains p.text) =
      s.parameters.head?.any fun p => called.contains p.text := by
    rw [List.head?_map, Option.any_map]
    simp only [Parameter.text_bare]
  simp only [ofStatement, bare, hlabel]
  rfl

theorem calledBy_map_bare (statements : List Statement) :
    calledBy (statements.map bare) = calledBy statements := by
  have hlabel : ∀ s : Statement, s.bare.parameters.head?.map Parameter.text =
      s.parameters.head?.map Parameter.text := by
    intro s
    rw [bare, List.head?_map, Option.map_map]
    simp only [Function.comp_def, Parameter.text_bare]
  rw [calledBy, calledBy, List.filter_map, List.filterMap_map]
  congr 1
  exact List.filterMap_congr fun s _ => hlabel s

/-- A script is formatted from what its lines say. -/
theorem format_eq_printAll (g : Grammar) (v : Version) (width : Nat) (lines : List String) :
    format g v width lines = printAll width (lines.map (ofLine g v)) := by
  rw [← map_bare_readAll, format, printAll, calledBy_map_bare]
  generalize (readAll g v lines).map (·.statement) = statements
  rw [List.map_map]
  exact congrArg (print width) (List.map_congr_left fun s _ => (ofStatement_bare _ s).symm)

/-! ## What the printed lines say -/

theorem exists_margin (spaces : Nat) (text : String) :
    ∃ margin : String, Token.AllGaps margin.toList ∧
      indent spaces (some text) = margin ++ text := by
  refine ⟨"".pushn ' ' spaces, ?_, rfl⟩
  induction spaces with
  | zero => simp [Token.AllGaps, String.pushn, Nat.repeat]
  | succ n ih =>
    intro c hc
    rw [show ("".pushn ' ' (n + 1)) = ("".pushn ' ' n).push ' ' from rfl, String.toList_push,
      List.mem_append, List.mem_singleton] at hc
    rcases hc with hc | rfl
    · exact ih c hc
    · rfl

/-- Every line is printed with its text, behind some margin. -/
theorem forall₂_print (width : Nat) (ps : List Printed) :
    List.Forall₂ (fun p line => ∃ spaces, line = indent spaces p.text) ps (print width ps) := by
  have hrun : ∀ (ps : List Printed) (i : Indentation) (out : Array String), ∃ lines,
      (ps.foldl printLine (i, out)).2.toList = out.toList ++ lines ∧
        List.Forall₂ (fun p line => ∃ spaces, line = indent spaces p.text) ps lines := by
    intro ps
    induction ps with
    | nil => exact fun i out => ⟨[], by simp, .nil⟩
    | cons p ps ih =>
      intro i out
      obtain ⟨lines, hlines, hall⟩ :=
        ih (i.pass p.shape).2 (out.push (indent (i.pass p.shape).1.spaces p.text))
      refine ⟨indent (i.pass p.shape).1.spaces p.text :: lines, ?_, .cons ⟨_, rfl⟩ hall⟩
      rw [List.foldl_cons]
      refine hlines.trans ?_
      simp
  obtain ⟨lines, hlines, hall⟩ := hrun ps (.start width) #[]
  rw [print, hlines]
  exact hall

section

variable {v : Version} {number : Nat} {line : String}

theorem bare_read_of_shown? (h : (read .builtin v number line).bare.statement.shown? = none) :
    (read .builtin v number line).bare = ⟨nop 0, none⟩ := by
  have hnop : (read .builtin v number line).bare.statement.form = FormId.nop := by
    rw [shown?] at h
    split at h
    · assumption
    · cases h
  revert hnop
  rw [bare_read, Reading.ofCode]
  split
  · split
    · intro hnop
      cases hnop
    · split
      · exact fun _ => rfl
      · intro hnop
        cases hnop
  · next r hr =>
    -- no line is read with the form of blank lines
    intro hnop
    have hmatchable :=
      builtin_lawful.matchable _ (Recognition.of_recognise?
        (Option.ite_none_left_eq_some.mp hr).2).1
    rw [show r.entry.form.id = FormId.nop from hnop] at hmatchable
    cases hmatchable

/-- A line is read the same when it is shown, however it is indented. -/
theorem bare_read_indent (h : Steady v line) (number spaces : Nat) :
    (read .builtin v number (indent spaces (ofLine .builtin v line).shown?)).bare =
      (read .builtin v number line).bare := by
  rw [ofLine_eq .builtin v number]
  cases hshown : (read .builtin v number line).statement.bare.shown? with
  | none =>
    rw [bare_read_of_shown? hshown, indent, bare_read, show Token.scan false (Token.code "") = []
      from Token.scan_nil false]
    rfl
  | some text =>
    obtain ⟨margin, hmargin, hindent⟩ := exists_margin spaces text
    rw [hindent]
    exact h.read_shown hmargin number hshown

/-- The lines of a formatted script are read like the lines of the script. -/
theorem forall₂_format {lines : List String} (h : ∀ line ∈ lines, Steady v line) (width : Nat) :
    List.Forall₂ (fun line line' => ∀ number, (read .builtin v number line).bare =
      (read .builtin v number line').bare)
      lines (format .builtin v width lines) := by
  have hprint := forall₂_print width ((lines.map (ofLine .builtin v)).map
    (ofStatement (calledBy (lines.map (ofLine .builtin v)))))
  rw [List.map_map, List.forall₂_map_left_iff] at hprint
  rw [format_eq_printAll, printAll, List.map_map]
  refine ((List.forall₂_and_left _ _).mpr ⟨h, hprint⟩).imp fun line line' hline number => ?_
  obtain ⟨hsteady, spaces, rfl⟩ := hline
  exact (bare_read_indent hsteady number spaces).symm

end

/-- Formatting a formatted script changes nothing, for every release and every width of the
indentation, if every line of the script is read as the same statement when it is displayed. The
lines may say anything: what no form fits, comments and commands that do not belong together are
kept as well. -/
theorem format_idempotent (v : Version) (width : Nat) (lines : List String)
    (h : ∀ line ∈ lines, Steady v line) :
    format .builtin v width (format .builtin v width lines) = format .builtin v width lines := by
  have hsame : lines.map (ofLine .builtin v) =
      (format .builtin v width lines).map (ofLine .builtin v) := by
    refine List.forall₂_eq_eq_eq ▸ List.forall₂_map_left_iff.mpr (List.forall₂_map_right_iff.mpr ?_)
    exact (forall₂_format h width).imp fun line line' hline => congrArg Reading.statement (hline 0)
  rw [format_eq_printAll _ _ _ (format ..), ← hsame, ← format_eq_printAll]

/-- Lines whose words stand apart are read as the same statements when they are displayed, whatever
the release. -/
theorem steady_of_separate (v : Version) {lines : List String}
    (h : (lines.all fun line =>
      decide (Token.Separate (Token.significant (Token.tokenize line false))) &&
      Text.trimChars (Token.code line) == Text.trimGaps (Token.code line)) = true) : ∀ line ∈ lines,
      Steady v line := by
  intro line hline
  have hkept := List.all_eq_true.mp h line hline
  rw [Bool.and_eq_true, decide_eq_true_eq, beq_iff_eq] at hkept
  exact ⟨fun _ _ => hkept.1, fun _ => hkept.2⟩

/-- A script with a subroutine that a block tears apart, a waiting `skip if` and lines that are no
commands. -/
def tornScript : List String :=
  ["gosub Sub:", "skip  if $a", "", "* if$b==-1", "*  a note ", "\tfrobnicate  $x ", "if  ! $a",
    "$x=$a[ -3 ]", "Sub:", "else", "endsub", "end", "end"]

/-- The torn script is formatted once and for all. -/
theorem tornScript_formatted : (∀ line ∈ tornScript, Steady .albionPrelude line) ∧
    format .builtin .albionPrelude 2 (format .builtin .albionPrelude 2 tornScript) =
      format .builtin .albionPrelude 2 tornScript := by
  have hsteady : ∀ line ∈ tornScript, Steady .albionPrelude line :=
    steady_of_separate _ (by decide +kernel)
  exact ⟨hsteady, format_idempotent .albionPrelude 2 tornScript hsteady⟩

/-- Without blanks in its brackets, an index that is a name is read as a script object, and the line
changes again. -/
theorem tightIndex_changes : format .builtin .albionPrelude 2 ["$x = $a[ null ]"] =
    ["$x = $a[null]"] ∧
      format .builtin .albionPrelude 2 ["$x = $a[null]"] = ["$x = $a [null]"] := by
  rw [Grammar.builtin_eq]
  decide +kernel

end Layout

end GameScript
