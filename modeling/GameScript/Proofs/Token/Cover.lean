import GameScript.Token.Lexer

/-!
# Tokens cover their line

`tokenize` loses nothing. Its tokens stand one behind another from the first byte of a line to its
last (`Tiles`), and the text of each is the piece of the line between its two places (`IsSlice`). So
the tokens can be looked up by place, and their texts put together are the line again.

The tokens are followed while the line is cut: `Cuts front ts rest` says that the tokens `ts` are
cut from `rest` where `front` stands before it. One step takes one token from the front of `rest`
(`lex_cuts`).
-/

namespace GameScript.Token

/-! ## Places -/

/-- The tokens stand one behind another from byte `start` to byte `stop`, and each takes a byte at
least. -/
def Tiles : Nat → List Token → Nat → Prop
  | start, [], stop => start = stop
  | start, t :: ts, stop => t.start = start ∧ t.start < t.stop ∧ Tiles t.stop ts stop

/-- The token starts and stops between characters of the line, and its text is made of the bytes
from its one place to the other. -/
structure IsSlice (line : String) (t : Token) : Prop where
  start_valid : String.Pos.Raw.IsValid line ⟨t.start⟩
  stop_valid : String.Pos.Raw.IsValid line ⟨t.stop⟩
  bytes_eq : line.toByteArray.extract t.start t.stop = t.text.toByteArray

def Covers (t : Token) (offset : Nat) : Prop := t.start ≤ offset ∧ offset < t.stop

/-! ## Cutting -/

/-- The tokens are cut from `rest`, one after another, where `front` stands before it. -/
inductive Cuts : String → List Token → String → Prop
  | nil (front : String) : Cuts front [] ""
  | cons {front rest : String} {t : Token} {ts : List Token} (hstart : t.start = front.utf8ByteSize)
      (hstop : t.stop = front.utf8ByteSize + t.text.utf8ByteSize) (hne : t.text ≠ "")
      (hts : Cuts (front ++ t.text) ts rest) : Cuts front (t :: ts) (t.text ++ rest)

/-- The first token of a text, and those of what is left of it. -/
theorem Cuts.step (front : String) (kind : TokenKind) {cs ds : List Char} {ts : List Token}
    (hne : cs ≠ []) (hts : Cuts (front ++ String.ofList cs) ts (String.ofList ds)) :
    Cuts front (ofChars kind front.utf8ByteSize cs :: ts) (String.ofList (cs ++ ds)) := by
  have htext : (ofChars kind front.utf8ByteSize cs).text = String.ofList cs := rfl
  rw [String.ofList_append, ← htext]
  refine .cons rfl rfl ?_ hts
  rw [htext]
  simpa using hne

theorem lex_cuts (front : String) (b : Bool) (cs : List Char) :
    Cuts front (lex front.utf8ByteSize b cs) (String.ofList cs) := by
  generalize hoffset : front.utf8ByteSize = offset
  fun_induction lex offset b cs generalizing front with
  | case1 => exact .nil front
  | case2 offset b c cs kind n hlexeme t ih =>
    subst hoffset
    have hsplit : c :: cs = (c :: cs.take (n - 1)) ++ cs.drop (n - 1) := by simp
    rw [hsplit]
    exact .step _ _ (List.cons_ne_nil _ _) (ih _ (String.utf8ByteSize_append ..))

theorem lexBody_cuts (front : String) (wholeComment : Bool) (cs : List Char) :
    Cuts front (lexBody wholeComment front.utf8ByteSize cs) (String.ofList cs) := by
  unfold lexBody
  split
  · next cs =>
    split
    · have hall :=
        Cuts.step front .comment (List.cons_ne_nil '*' cs)
          (.nil (front ++ String.ofList ('*' :: cs)))
      rwa [List.append_nil] at hall
    · have hmark : (front ++ String.ofList ['*']).utf8ByteSize =
          (Token.ofChars .comment front.utf8ByteSize ['*']).stop :=
        String.utf8ByteSize_append ..
      have hrest := lex_cuts (front ++ String.ofList ['*']) false cs
      rw [hmark] at hrest
      exact .step _ _ (List.cons_ne_nil _ _) hrest
  · exact lex_cuts ..

theorem tokenize_cuts (line : String) (wholeComment : Bool) :
    Cuts "" (tokenize line wholeComment) line := by
  have hline : String.ofList line.toList = line := String.ofList_toList
  unfold tokenize
  dsimp only
  split
  · have hbody := lexBody_cuts "" wholeComment line.toList
    rwa [hline] at hbody
  · next hgap =>
    have hsplit := List.takeWhile_append_dropWhile (p := isGap) (l := line.toList)
    have hbody :=
      lexBody_cuts (String.ofList (line.toList.takeWhile isGap)) wholeComment
        (line.toList.dropWhile isGap)
    have hstop : (ofChars .blank 0 (line.toList.takeWhile isGap)).stop =
        (String.ofList (line.toList.takeWhile isGap)).utf8ByteSize := Nat.zero_add _
    have hcuts := Cuts.step "" .blank hgap hbody
    rw [hsplit, hline] at hcuts
    rw [hstop]
    exact hcuts

/-! ## What the tokens cover -/

namespace Cuts

variable {front rest : String} {ts : List Token}

theorem tiles (h : Cuts front ts rest) :
    Tiles front.utf8ByteSize ts (front ++ rest).utf8ByteSize := by
  induction h with
  | nil => simp [Tiles]
  | @cons front rest t ts hstart hstop hne hts ih =>
    have hpos : 0 < t.text.utf8ByteSize :=
      Nat.pos_of_ne_zero fun h => hne (String.utf8ByteSize_eq_zero_iff.mp h)
    refine ⟨hstart, by omega, ?_⟩
    rw [String.utf8ByteSize_append, ← hstop, String.append_assoc] at ih
    exact ih

theorem join_texts (h : Cuts front ts rest) : String.join (ts.map text) = rest := by
  induction h with
  | nil => rfl
  | cons _ _ _ _ ih => rw [List.map_cons, String.join_cons, ih]

theorem text_ne_empty (h : Cuts front ts rest) {t : Token} (ht : t ∈ ts) : t.text ≠ "" := by
  induction h with
  | nil => cases ht
  | cons _ _ hne _ ih =>
    rcases List.mem_cons.mp ht with rfl | ht
    · exact hne
    · exact ih ht

/-- A token and the text before and behind it. -/
theorem exists_split (h : Cuts front ts rest) {t : Token} (ht : t ∈ ts) :
    ∃ before behind, front ++ rest = before ++ t.text ++ behind ∧ t.start = before.utf8ByteSize ∧
      t.stop = (before ++ t.text).utf8ByteSize := by
  induction h with
  | nil => cases ht
  | @cons front rest u us hstart hstop hne hts ih =>
    rcases List.mem_cons.mp ht with rfl | ht
    · exact ⟨front, rest, (String.append_assoc ..).symm, hstart,
        by rw [hstop, String.utf8ByteSize_append]⟩
    · obtain ⟨before, behind, hsplit, hplaces⟩ := ih ht
      exact ⟨before, behind, by rw [← hsplit, String.append_assoc], hplaces⟩

theorem isSlice (h : Cuts "" ts rest) {t : Token} (ht : t ∈ ts) : t.IsSlice rest := by
  obtain ⟨before, behind, hsplit, hstart, hstop⟩ := h.exists_split ht
  rw [String.empty_append] at hsplit
  subst hsplit
  refine ⟨?_, ?_, ?_⟩
  · rw [String.Pos.Raw.isValid_iff_exists_append]
    exact ⟨before, t.text ++ behind, String.append_assoc .., by rw [hstart]; rfl⟩
  · rw [String.Pos.Raw.isValid_iff_exists_append]
    exact ⟨before ++ t.text, behind, rfl, by rw [hstop]; rfl⟩
  · rw [hstart, hstop, String.toByteArray_append, ← String.size_toByteArray (s := before ++ t.text),
      ByteArray.extract_append_size_left, String.toByteArray_append]
    exact ByteArray.extract_append_eq_right String.size_toByteArray.symm (ByteArray.size_append ..)

end Cuts

namespace Tiles

variable {start stop offset : Nat} {ts : List Token}

theorem start_le (h : Tiles start ts stop) {t : Token} (ht : t ∈ ts) : start ≤ t.start := by
  induction ts generalizing start with
  | nil => cases ht
  | cons u us ih =>
    obtain ⟨rfl, hlt, hus⟩ := h
    rcases List.mem_cons.mp ht with rfl | ht
    · exact Nat.le_refl _
    · exact Nat.le_of_lt (Nat.lt_of_lt_of_le hlt (ih hus ht))

theorem le (h : Tiles start ts stop) : start ≤ stop := by
  induction ts generalizing start with
  | nil => exact Nat.le_of_eq h
  | cons u us ih =>
    obtain ⟨rfl, hlt, hus⟩ := h
    exact Nat.le_of_lt (Nat.lt_of_lt_of_le hlt (ih hus))

theorem stop_le (h : Tiles start ts stop) {t : Token} (ht : t ∈ ts) : t.stop ≤ stop := by
  induction ts generalizing start with
  | nil => cases ht
  | cons u us ih =>
    obtain ⟨-, -, hus⟩ := h
    rcases List.mem_cons.mp ht with rfl | ht
    · exact hus.le
    · exact ih hus ht

/-- The token that is found at a place is the only one that takes it. -/
theorem exists_covers (h : Tiles start ts stop) (hstart : start ≤ offset) (hstop : offset < stop) :
    ∃ before t behind, ts = before ++ t :: behind ∧ at? ts offset = some t ∧ t.Covers offset ∧
      ∀ u ∈ before ++ behind, ¬ u.Covers offset := by
  induction ts generalizing start with
  | nil =>
    obtain rfl : start = stop := h
    omega
  | cons t ts ih =>
    obtain ⟨rfl, hlt, hts⟩ := h
    by_cases hoffset : offset < t.stop
    · refine ⟨[], t, ts, rfl, ?_, ⟨hstart, hoffset⟩, fun u hu hcovers => ?_⟩
      · simp [at?, hstart, hoffset]
      · have hbehind := hts.start_le hu
        have := hcovers.1
        omega
    · obtain ⟨before, u, behind, rfl, hat, hcovers, honly⟩ := ih hts (by omega)
      refine ⟨t :: before, u, behind, rfl, ?_, hcovers, fun v hv => ?_⟩
      · rw [at?, List.find?_cons_of_neg (by simp [hoffset])]
        exact hat
      · rcases List.mem_cons.mp hv with rfl | hv
        · exact fun hc => hoffset hc.2
        · exact honly v hv

/-- There is no token behind the last one. -/
theorem at?_eq_none (h : Tiles start ts stop) (hstop : stop ≤ offset) : at? ts offset = none := by
  rw [at?, List.find?_eq_none]
  intro t ht hcovers
  have hle := h.stop_le ht
  simp only [Bool.and_eq_true, decide_eq_true_eq] at hcovers
  omega

end Tiles

/-- The tokens of every line cover it, with a whole comment as one token or not: none is empty, the
first starts at byte 0, each of the others where the one before it stops, the last stops at the end
of the line, and each is the piece of the line between its places, cut between characters. So the
texts put together are the line, and for each byte of the line the one token that takes it is found,
and none for any other place. -/
theorem tokens_cover_line (line : String) (wholeComment : Bool) :
    Tiles 0 (tokenize line wholeComment) line.utf8ByteSize ∧
    (∀ t ∈ tokenize line wholeComment, t.text ≠ "" ∧ t.IsSlice line) ∧
    String.join ((tokenize line wholeComment).map text) = line ∧
    (∀ offset < line.utf8ByteSize, ∃ before t behind, tokenize line wholeComment =
      before ++ t :: behind ∧
      at? (tokenize line wholeComment) offset = some t ∧ t.Covers offset ∧
      ∀ u ∈ before ++ behind, ¬ u.Covers offset) ∧
    ∀ offset, line.utf8ByteSize ≤ offset → at? (tokenize line wholeComment) offset = none := by
  have hcuts := tokenize_cuts line wholeComment
  have htiles : Tiles 0 (tokenize line wholeComment) line.utf8ByteSize := by
    have htiles := hcuts.tiles
    rwa [String.empty_append] at htiles
  exact ⟨htiles, fun t ht => ⟨hcuts.text_ne_empty ht, hcuts.isSlice ht⟩, hcuts.join_texts,
    fun offset hoffset => htiles.exists_covers (Nat.zero_le _) hoffset, fun offset hoffset =>
      htiles.at?_eq_none hoffset⟩

end GameScript.Token
