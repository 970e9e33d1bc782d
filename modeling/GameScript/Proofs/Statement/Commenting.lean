import Mathlib.Data.List.TakeWhile
import GameScript.Proofs.Statement.Rereading
import GameScript.Proofs.Statement.Selection

/-!
# Commenting lines out

A comment mark in front of a line moves its tokens and changes nothing else about them
(`Token.scan_code_marked`): what stands behind the mark is cut as a line of its own, and the blank
behind it is a blank between tokens. So the same form is chosen for the line, also among forms that
the release does not know, and a line that no form fits becomes a comment. What would be reported
about the line is not reported any more: `marked_line_is_silent`.
-/

namespace GameScript

namespace Token

variable {line : String} {c : Char}

theorem stripped_marked (line : String) : stripped ("* " ++ line) = '*' :: ' ' :: line.toList := by
  rw [stripped, String.toList_append]
  rfl

theorem head?_stripped_eq (h : line.toList.find? (fun c => !isGap c) = some c) :
    (stripped line).head? = some c := by
  rwa [stripped, ← List.find?_not_eq_head?_dropWhile]

/-- A comment mark changes nothing about the tokens of a line but their places. -/
theorem scan_code_marked (h : line.toList.find? (fun c => !isGap c) = some c) (hc : c ≠ '*') :
    scan false (code ("* " ++ line)) = scan false (code line) := by
  have hmark : (stripped line).head? ≠ some '*' := by
    rw [head?_stripped_eq h]
    simpa using hc
  obtain ⟨g, hg, hsplit⟩ := Text.exists_dropLeft isGap line.toList
  calc scan false (code ("* " ++ line)) = scan false (' ' :: line.toList) := by
        rw [code_of_mark (stripped_marked line)]
    _ = scan false (g ++ stripped line) := by
        rw [scan_gap rfl]
        exact congrArg (scan false) hsplit
    _ = scan false (code line) := by rw [scan_append_left hg, code_of_no_mark hmark]

/-- A line with a character that is no blank has tokens. -/
theorem scan_code_ne_nil (h : line.toList.find? (fun c => !isGap c) = some c) (hc : c ≠ '*') :
    scan false (code line) ≠ [] := by
  have hhead := head?_stripped_eq h
  have hmark : (stripped line).head? ≠ some '*' := by
    rw [hhead]
    simpa using hc
  obtain ⟨cs, hcs⟩ := List.head?_eq_some_iff.mp hhead
  intro hnil
  have hfirst : (join (scan false (c :: cs))).toList.head? = some c :=
    head?_join_scan (head?_stripped line c hhead)
  rw [← hcs, ← code_of_no_mark hmark, hnil] at hfirst
  cases hfirst

end Token

/-- Lines with the same tokens, wherever they stand, are recognised as the same command. -/
theorem Grammar.recognise?_of_scan (g : Grammar) (v : Version) {line line' : String}
    (h : Token.scan false (Token.code line') = Token.scan false (Token.code line)) :
    (g.recognise? v (Token.significant (Token.tokenize line' false))).map
      (Recognition.map Token.bare) =
      (g.recognise? v (Token.significant (Token.tokenize line false))).map
        (Recognition.map Token.bare) := by
  rw [← Statement.recognise?_scan, ← Statement.recognise?_scan, h]

/-- A comment mark before a line that has none is silent and keeps the line. If the line is not
reported as unrecognised, the marked line is the same command, commented out; if it is, the marked
line is a comment with its text. Nothing is reported about the marked line. -/
theorem marked_line_is_silent (forms : List Form) (v : Version) (number : Nat) (line : String)
    (c : Char) (hfirst : line.toList.find? (fun c => !Token.isGap c) = some c) (hc : c ≠ '*') :
    let plain := Statement.read (.ofForms forms) v number line
    let marked := Statement.read (.ofForms forms) v number ("* " ++ line)
    (plain.diagnostic.map (·.code) ≠ some "SYNTAX_UNRECOGNISED" →
      marked.statement.form = plain.statement.form ∧
      marked.statement.conditional = plain.statement.conditional ∧
      marked.statement.text = plain.statement.text ∧
      marked.statement.parameters.map Parameter.bare =
        plain.statement.parameters.map Parameter.bare ∧
      marked.statement.commented = true ∧ marked.statement.role = .idle ∧
      marked.statement.kind = .auxiliary ∧
      marked.statement.display = "* " ++ plain.statement.display) ∧
    (plain.diagnostic.map (·.code) = some "SYNTAX_UNRECOGNISED" →
      marked.statement.form = FormId.comment ∧ marked.statement.text = Text.trim line) ∧
    marked.diagnostic = none := by
  intro plain marked
  have hscan := Token.scan_code_marked hfirst hc
  have hne := Token.scan_code_ne_nil hfirst hc
  have hplain : (Token.comment? (Token.tokenize line false)).isSome = false := by
    rw [Token.isSome_comment?, Token.head?_stripped_eq hfirst]
    simpa using hc
  have hmarked : (Token.comment? (Token.tokenize ("* " ++ line) false)).isSome = true := by
    rw [Token.isSome_comment?, Token.stripped_marked]
    rfl
  have hts : Token.significant (Token.tokenize line false) ≠ [] := fun hnil =>
    hne (Statement.significant_eq_nil_iff.mp hnil)
  have hts' : Token.significant (Token.tokenize ("* " ++ line) false) ≠ [] := fun hnil =>
    hne (hscan.symm.trans (Statement.significant_eq_nil_iff.mp hnil))
  have hsame := Grammar.recognise?_of_scan (.ofForms forms) v hscan
  cases hr : (Grammar.ofForms forms).recognise? v
    (Token.significant (Token.tokenize line false)) with
  | none =>
    rw [hr, Option.map_none, Option.map_eq_none_iff] at hsame
    have hread : plain = Reading.unfit number line false :=
      Statement.read_eq_unfit rfl hts hplain hr
    have hread' : marked = Reading.unfit number ("* " ++ line) true :=
      Statement.read_eq_unfit rfl hts' hmarked hsame
    rw [hread, hread']
    refine ⟨fun hcode => absurd rfl hcode, fun _ => ⟨rfl, ?_⟩, rfl⟩
    show Statement.commentBody ("* " ++ line) = Text.trim line
    rw [Statement.commentBody_of_stripped (Token.stripped_marked line)]
    rfl
  | some r =>
    rw [hr, Option.map_some] at hsame
    obtain ⟨r', hr', hbare⟩ := Option.map_eq_some_iff.mp hsame
    have hread : plain = _ := Statement.read_eq_of_fits rfl hts hplain hr
    have hread' : marked = _ := Statement.read_eq_of_fits rfl hts' hmarked hr'
    -- both are the same command, up to the places of its tokens
    have hcommand := Statement.bare_ofRecognition number ("* " ++ line) true r'
    rw [hbare, ← Statement.bare_ofRecognition number line true r] at hcommand
    have hform := congrArg Statement.form hcommand
    have hconditional := congrArg Statement.conditional hcommand
    have htext := congrArg Statement.text hcommand
    have hparameters := congrArg Statement.parameters hcommand
    have hdisplay := congrArg Statement.display hcommand
    obtain ⟨i, hselects, -⟩ := Grammar.selects_of_recognise? hr
    have hcomment : ∀ commented, (Statement.ofRecognition number line commented r).isComment =
        false := by
      intro commented
      have hmatchable := hselects.fits.matchable
      simp only [FormId.isUnmatchable, Bool.or_eq_false_iff] at hmatchable
      exact hmatchable.1.2
    rw [hread, hread']
    refine ⟨fun _ => ⟨hform, hconditional, htext, hparameters, rfl, rfl, rfl, hdisplay.trans ?_⟩,
      fun hcode => ?_, rfl⟩
    · show (Statement.ofRecognition number line true r).display = _
      rw [Statement.display, Statement.display, hcomment, hcomment]
      rfl
    · obtain ⟨d, hd, hcode⟩ := Option.map_eq_some_iff.mp hcode
      obtain ⟨p, hp, rfl⟩ := Option.map_eq_some_iff.mp hd
      exact absurd hcode (Statement.code_ne_of_problem? hp)

def datedForm : Form := { Form.simple 200 "hail $0" [.gameObject] with versions := [.threat] }

/-- An indented command of another release whose object is not closed is reported, and commented out
it is not. -/
theorem datedForm_marked :
    "\t hail  \x7bArgon Eagle".toList.find? (fun c => !Token.isGap c) = some 'h' ∧
    (Statement.read (.ofForms [datedForm]) .reunion 1 "\t hail  \x7bArgon Eagle").diagnostic.map
      (·.code) =
      some "SYNTAX_OBJECT_UNTERMINATED" ∧
    (Statement.read (.ofForms [datedForm]) .reunion 1
      "* \t hail  \x7bArgon Eagle").statement.commented = true ∧
    (Statement.read (.ofForms [datedForm]) .reunion 1 "* \t hail  \x7bArgon Eagle").diagnostic =
      none := by
  have hfirst : "\t hail  \x7bArgon Eagle".toList.find? (fun c => !Token.isGap c) = some 'h' := by
    decide +kernel
  have hcode : (Statement.read (.ofForms [datedForm]) .reunion 1
      "\t hail  \x7bArgon Eagle").diagnostic.map (·.code) =
      some "SYNTAX_OBJECT_UNTERMINATED" := by decide +kernel
  obtain ⟨hcommand, -, hsilent⟩ :=
    marked_line_is_silent [datedForm] .reunion 1 "\t hail  \x7bArgon Eagle" 'h' hfirst (by decide)
  obtain ⟨-, -, -, -, hcommented, -⟩ := hcommand (by rw [hcode]; decide)
  exact ⟨hfirst, hcode, hcommented, hsilent⟩

end GameScript
