import GameScript.Proofs.Token.Scan

/-!
# The tokens of a line

What stands behind the leading blanks and the comment mark of a line is its `code`. The tokens of a
line that carry meaning are those of its code (`significant_tokenize`), with a comment mark before
it or not.
-/

namespace GameScript.Token

def afterMark : List Char → List Char
  | '*' :: cs => cs
  | cs => cs

/-- The characters of a line behind its leading blanks and its comment mark. -/
def code (line : String) : List Char := afterMark (line.toList.dropWhile isGap)

theorem dropWhile_of_takeWhile_eq_nil {p : Char → Bool} {cs : List Char} (h : cs.takeWhile p = []) :
    cs.dropWhile p = cs := by
  have hsplit := List.takeWhile_append_dropWhile (p := p) (l := cs)
  rwa [h, List.nil_append] at hsplit

theorem significant_lexBody (offset : Nat) (cs : List Char) :
    (significant (lexBody false offset cs)).map bare = scan false (afterMark cs) := by
  unfold lexBody
  split
  · exact scan_eq ..
  · next hmark =>
    have hcs : afterMark cs = cs := by
      unfold afterMark
      split
      · exact absurd rfl (hmark _)
      · rfl
    rw [hcs]
    exact scan_eq ..

/-- The tokens of a line that carry meaning are those of its code. -/
theorem significant_tokenize (line : String) :
    (significant (tokenize line false)).map bare = scan false (code line) := by
  unfold tokenize code
  dsimp only
  split
  · next h => rw [dropWhile_of_takeWhile_eq_nil h, significant_lexBody]
  · exact significant_lexBody ..

/-! ## Neighbours in a line -/

/-- The places of tokens do not matter for what may stand before what. -/
theorem cut_map_bare {b : Bool} {ts : List Token} : Cut b (ts.map bare) ↔ Cut b ts := by
  induction ts generalizing b with
  | nil => rfl
  | cons t ts ih =>
    have hbefore : t.bare.CutBefore b (ts.map bare) ↔ t.CutBefore b ts :=
      ⟨fun h => ⟨h.spelled, h.nonempty, h.significant,
        fun hopen => List.map_eq_nil_iff.mp (h.last hopen)⟩,
        fun h => ⟨h.spelled, h.nonempty, h.significant,
          fun hopen => List.map_eq_nil_iff.mpr (h.last hopen)⟩⟩
    exact and_congr hbefore ih

theorem cut_significant (line : String) : Cut false (significant (tokenize line false)) := by
  rw [← cut_map_bare, significant_tokenize]
  exact scan_cut ..

end GameScript.Token
