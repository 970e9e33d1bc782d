import GameScript.Proofs.Compile.Lines
import GameScript.Proofs.Statement.Commenting

/-!
# Blanks around lines

Indentation and line ends do not matter. What a line is read as depends on its tokens without their
places, on whether it has a comment mark, and on its text without the blanks at its ends
(`Statement.bare_read`). Spaces, tabs and carriage returns around a line change none of these, as
long as every string and every object in it is closed: `margins_make_no_difference`.
-/

namespace GameScript

/-- Blanks behind a text are trimmed with it. -/
theorem Text.trimChars_append {g : List Char} (hg : ∀ c ∈ g, isBlank c = true) (cs : List Char) :
    trimChars (cs ++ g) = trimChars cs := by
  have hright : ∀ cs, dropRight isBlank (cs ++ g) = dropRight isBlank cs := by
    intro cs
    rw [dropRight, List.reverse_append, List.dropWhile_append_of_pos (by simpa using hg)]
    rfl
  unfold trimChars dropLeft
  rw [List.dropWhile_append]
  split
  · next hempty =>
    rw [List.isEmpty_iff.mp hempty, List.dropWhile_eq_nil_iff.mpr hg]
  · exact hright _

/-! ## Tokens -/

namespace Token

/-- Blanks around a line stand behind its code or nowhere, and a comment mark stays a mark. -/
theorem code_padded {before behind : String} (hbefore : AllGaps before.toList)
    (hbehind : AllGaps behind.toList) (line : String) :
    ∃ g, AllGaps g ∧ code (before ++ line ++ behind) = code line ++ g ∧
      (stripped (before ++ line ++ behind)).head? = (stripped line).head? := by
  have hpadded : stripped (before ++ line ++ behind) =
      (line.toList ++ behind.toList).dropWhile isGap := by
    rw [stripped, String.toList_append, String.toList_append, List.append_assoc]
    exact Text.dropLeft_append hbefore _
  rw [List.dropWhile_append] at hpadded
  cases hline : stripped line with
  | nil =>
    rw [show line.toList.dropWhile isGap = [] from hline,
      List.dropWhile_eq_nil_iff.mpr hbehind] at hpadded
    have hcode : ∀ line, stripped line = [] → code line = [] := fun line h => by
      rw [code_of_no_mark (by rw [h]; simp), h]
    exact ⟨[], by simp [AllGaps], by rw [hcode _ hpadded, hcode _ hline]; rfl, by rw [hpadded]; rfl⟩
  | cons c cs =>
    rw [show line.toList.dropWhile isGap = c :: cs from hline] at hpadded
    refine ⟨behind.toList, hbehind, ?_, by rw [hpadded]; rfl⟩
    by_cases hc : c = '*'
    · subst hc
      exact (code_of_mark hpadded).trans (by rw [code_of_mark hline]; rfl)
    · rw [code_of_no_mark (by rw [hpadded]; simpa using hc),
        code_of_no_mark (by rw [hline]; simpa using hc), hpadded,
        hline]
      rfl

/-- Blanks around a line change no token, if all of them are closed. -/
theorem scan_append_of_closed {g : List Char} {line : String} (hg : AllGaps g)
    (hclosed : ∀ t ∈ tokenize line false, t.isOpen = false) :
    scan false (code line ++ g) = scan false (code line) := by
  rw [scan_append_gaps hg, ← significant_tokenize, List.map_map]
  refine List.map_congr_left fun t ht => if_neg ?_
  rw [show t.bare.isOpen = t.isOpen from rfl, hclosed t (List.mem_of_mem_filter ht)]
  simp

end Token

/-! ## Readings -/

/-- Spaces, tabs and carriage returns around a line in which all strings and objects are closed make
no difference to what it is read as, except for the places of the line and its tokens, nor to what
is reported about it. -/
theorem margins_make_no_difference (g : Grammar) (v : Version) (number : Nat)
    (line before behind : String) (hclosed : ∀ t ∈ Token.tokenize line false, t.isOpen = false)
    (hbefore : ∀ c ∈ before.toList, c = ' ' ∨ c = '\t' ∨ c = '\r')
    (hbehind : ∀ c ∈ behind.toList, c = ' ' ∨ c = '\t' ∨ c = '\r') :
    let plain := Statement.read g v number line
    let padded := Statement.read g v number (before ++ line ++ behind)
    padded.statement.bare = plain.statement.bare ∧ padded.statement.line = plain.statement.line ∧
      padded.diagnostic = plain.diagnostic := by
  intro plain padded
  have hgaps : ∀ s : String, (∀ c ∈ s.toList, c = ' ' ∨ c = '\t' ∨ c = '\r') →
      Token.AllGaps s.toList := by
    intro s hs c hc
    rcases hs c hc with rfl | rfl | rfl <;> rfl
  obtain ⟨gap, hgap, hcode, hhead⟩ := Token.code_padded (hgaps _ hbefore) (hgaps _ hbehind) line
  have hread : padded.bare = plain.bare := by
    rw [Statement.bare_read, Statement.bare_read, Statement.isMarked, hhead, Statement.body, hcode,
      Token.scan_append_of_closed hgap hclosed, Text.trimChars_append fun c hc =>
        Token.isBlank_of_isGap (hgap c hc)]
    rfl
  exact ⟨congrArg Reading.statement hread,
    (Statement.line_read ..).trans (Statement.line_read ..).symm,
    (congrArg Reading.diagnostic hread :)⟩

/-- A command of another release is reported as such, indented or not and with any line end. -/
theorem datedForm_padded :
    (∀ t ∈ Token.tokenize "hail \x7bArgon Eagle\x7d" false, t.isOpen = false) ∧
    (Statement.read (.ofForms [datedForm]) .reunion 1 ("\t " ++ "hail \x7bArgon Eagle\x7d" ++
      " \r")).diagnostic.map (·.code) =
      some "SYNTAX_VERSION_UNSUPPORTED" := by
  have hclosed : (Token.tokenize "hail \x7bArgon Eagle\x7d" false).all (fun t => !t.isOpen) =
      true := by decide +kernel
  have hclosed : ∀ t ∈ Token.tokenize "hail \x7bArgon Eagle\x7d" false, t.isOpen = false := by
    simpa using hclosed
  have hcode : (Statement.read (.ofForms [datedForm]) .reunion 1
      "hail \x7bArgon Eagle\x7d").diagnostic.map (·.code) =
      some "SYNTAX_VERSION_UNSUPPORTED" := by decide +kernel
  refine ⟨hclosed, ?_⟩
  rw [(margins_make_no_difference (.ofForms [datedForm]) .reunion 1 _ "\t " " \r" hclosed (by simp)
    (by simp)).2.2, hcode]

end GameScript
