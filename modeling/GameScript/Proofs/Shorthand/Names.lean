import GameScript.Proofs.Shorthand.Hygiene
import GameScript.Proofs.Statement.Rereading

/-!
# Names in expansions

The statements that stand for a shorthand have no variables but those of the shorthand and the one
that is drawn for it (`Generated.IsRead.named`). This holds for every shorthand of a script, also if
something is wrong with its parameters: the lines of the expansion are cut at the ends of the
parameters again, whatever these are.

Only a string that is not closed goes on behind its parameter. It is the last token of its line, so
it is in the last parameter (`Fills.closed`), which stands at the end of most lines.
-/

namespace GameScript

namespace Token

def NamesIn (named : String → Prop) (ts : List Token) : Prop :=
  ∀ t ∈ ts, t.kind = .var → named t.value

variable {named : String → Prop} {ts us : List Token} {t : Token} {k : TokenKind} {b : Bool}

theorem namesIn_bare : NamesIn named (ts.map Token.bare) ↔ NamesIn named ts := by
  simp only [NamesIn, List.forall_mem_map]
  rfl

theorem namesIn_append : NamesIn named (ts ++ us) ↔ NamesIn named ts ∧ NamesIn named us := by
  simp [NamesIn, or_imp, forall_and]

theorem NamesIn.cons (h : NamesIn named ts) (hkind : (t.kind == .var) = false) :
    NamesIn named (t :: ts) := by
  simpa [NamesIn, beq_eq_false_iff_ne.mp hkind] using h

/-! ## Values in a text -/

/-- A string or an object that is not closed swallows what stands behind it. -/
theorem Written.append_of_isOpen (h : t.Written k) (hopen : t.isOpen = true) (rest : String)
    (hquote : '\'' ∉ rest.toList) (hbrace : '}' ∉ rest.toList) :
    (Token.mk k 0 0 (t.text ++ rest)).Written k ∧ (k = .string ∨ k = .gameObject) := by
  rw [isOpen, h.kind] at hopen
  have hkind : k = .string ∨ k = .gameObject := by
    simp only [Bool.or_eq_true, Bool.and_eq_true, beq_iff_eq] at hopen
    exact hopen.imp And.left And.left
  refine ⟨⟨rfl, h.operand, fun b => ?_⟩, hkind⟩
  have hspelled := h.spelled b
  rw [String.toList_append]
  generalize t.text.toList = cs at hspelled hopen
  rcases hkind with rfl | rfl
  · cases hspelled with
    | openString hinner => exact .openString (by simp [hinner, hquote])
    | string => simp at hopen
    | @symbol _ w _ hop => rcases operatorKind_cases b w with hw | hw <;> cases hop.trans hw
  · cases hspelled with
    | openGameObject hinner => exact .openGameObject (by simp [hinner, hbrace])
    | gameObject => simp at hopen
    | @symbol _ w _ hop => rcases operatorKind_cases b w with hw | hw <;> cases hop.trans hw

theorem Item.exists_of_isOpen (h : Item ts) (hopen : ∃ t ∈ ts, t.isOpen = true) :
    ∃ k t, ts = [t] ∧ t.Written k ∧ t.isOpen = true := by
  obtain ⟨t, ht, hopen⟩ := hopen
  cases h with
  | operand h =>
    rw [List.mem_singleton.mp ht] at hopen
    exact ⟨_, _, rfl, h, hopen⟩
  | negative hm hn =>
    rw [(Scalar.negative hm hn).not_isOpen t ht] at hopen
    cases hopen

/-- A value that has these names only. -/
structure Phrase (named : String → Prop) (ts : List Token) : Prop where
  item : Item ts
  names : NamesIn named ts

theorem Phrase.namesIn (h : Phrase named ts) : NamesIn named (scan false (join ts).toList) := by
  rw [h.item.scan_eq, namesIn_bare]
  exact h.names

/-- A value that something may follow. -/
structure Whole (named : String → Prop) (ts : List Token) : Prop extends Phrase named ts where
  closed : ∀ t ∈ ts, t.isOpen = false

namespace Whole

theorem ofInt (z : Int) : Whole named (ofInt z) := by
  refine ⟨⟨(scalar_ofInt z).item, ?_⟩, (scalar_ofInt z).not_isOpen⟩
  cases z <;> simp [NamesIn, Token.ofInt, Token.ofNat, Mark.token, Mark.minus]

theorem append (h : Whole named ts) {rest : List Char} (hapart : Apart rest)
    (hrest : NamesIn named (scan true rest)) :
    NamesIn named (scan false ((join ts).toList ++ rest)) := by
  have hend : ∀ t ∈ ts, t.isOpen = true → rest = [] := by
    intro t ht hc
    rw [h.closed t ht] at hc
    cases hc
  rw [h.item.scan_append rest hapart hend, namesIn_append, namesIn_bare]
  exact ⟨h.names, hrest⟩

theorem operation (h : Whole named ts) {x y : String}
    (hx : x ∈ [" = ", " + ", " - ", " < ", " > "]) (hy : NamesIn named (scan false y.toList)) :
    NamesIn named (scan false (join ts ++ x ++ y).toList) := by
  have hall : ∀ x ∈ [" = ", " + ", " - ", " < ", " > "], ∃ w ∈ ["=", "+", "-", "<", ">"],
      x.toList = ' ' :: (w.toList ++ [' ']) := by decide
  obtain ⟨w, hw, hx⟩ := hall x hx
  have hline : (join ts ++ x ++ y).toList =
      (join ts).toList ++ ' ' :: (w.toList ++ ' ' :: y.toList) := by simp [hx]
  rw [hline]
  refine h.append (fun c hc => .inl (by simpa using hc.symm)) ?_
  rw [scan_spaced hw]
  exact hy.cons rfl

theorem index (h : Whole named ts) {rest : List Char} (hrest : NamesIn named (scan true rest)) :
    NamesIn named (scan true ('[' :: ((join ts).toList ++ ']' :: rest))) := by
  -- The brackets make a script object of `null`.
  have hobject : (∃ t, ts = [t] ∧ t.Written .null) ∨
      scriptObject? ('[' :: ((join ts).toList ++ ']' :: rest)) = none := by
    cases h.item with
    | @operand k t ht =>
      by_cases hk : k = .null
      · exact .inl ⟨t, rfl, hk ▸ ht⟩
      · exact .inr (ht.scriptObject? hk _)
    | negative hm _ =>
      rw [join_negative hm]
      exact .inr rfl
  rcases hobject with ⟨t, rfl, ht⟩ | hobject
  · have hnull : (join [t]).toList = "null".toList := by
      have hshaped := (ht.spelled false).shaped ht.kind rfl
      rwa [Shaped, ht.kind] at hshaped
    have hscan : scan true ('[' :: ("null".toList ++ ']' :: rest)) =
        (Token.mk .scriptObject 0 0 "[null]").bare :: scan true rest :=
      Token.scan_append (t := ⟨.scriptObject, 0, 0, "[null]"⟩) (by decide) rfl rfl
    rw [hnull, hscan]
    exact hrest.cons rfl
  · rw [scan_opening hobject]
    refine (h.append (apart_closing rest) ?_).cons rfl
    rw [scan_closing]
    exact hrest.cons rfl

end Whole

end Token

open Token

/-! ## The lines of expansions -/

theorem Token.apart_opening (cs : List Char) : Apart ('[' :: cs) := by
  intro c hc
  cases hc
  simp

namespace Expansion

variable {named : String → Prop} {array item counter iterator : List Token}

theorem namesIn_while {x : String} (h : NamesIn named (scan false x.toList)) :
    NamesIn named (scan false ("while " ++ x).toList) := by
  rw [String.toList_append, scan_while]
  exact h.cons rfl

theorem dim_named (harray : Whole named array) {items : List (List Token)}
    (hitems : ∀ item ∈ items, Phrase named item) :
    ∀ line ∈ (dim (join array) items).lines, NamesIn named (scan false line.toList) := by
  intro line hline
  simp only [lines, dim, Option.toList_none, List.append_nil, List.mem_cons, List.mem_map,
    Prod.exists] at hline
  rcases hline with rfl | ⟨item, index, hmem, rfl⟩
  · have hline : join array ++ " = array alloc: size=" ++ toString items.length =
        join array ++ " = " ++ ("array alloc: size=" ++ (ofNat items.length).text) := by
      rw [← String.toList_inj]
      simp [ofNat]
    rw [hline]
    refine harray.operation (by simp) ?_
    rw [String.toList_append, scan_alloc (written_ofNat _)]
    simp [NamesIn, Mark.token, Mark.op, Mark.word, ofNat]
  · have hline : (join array ++ "[" ++ toString index ++ "] = " ++ join item).toList =
        (join array).toList ++ '[' :: ((join [ofNat index]).toList ++
          ']' :: (' ' :: ("=".toList ++ ' ' :: (join item).toList))) := by
      simp [join, ofNat]
    rw [hline]
    refine harray.append (apart_opening _) ((Whole.ofInt (.ofNat index)).index ?_)
    rw [scan_spaced (by simp)]
    exact (hitems item (List.fst_mem_of_mem_zipIdx hmem)).namesIn.cons rfl

theorem counted_named {initial limit : Parameter} {step : Step} (hcounter : Whole named counter)
    (hiterator : Whole named iterator) (hinitial : Whole named initial.tokens)
    (hlimit : Phrase named limit.tokens)
    (hstep : NamesIn named (scan false step.magnitude.toList)) :
    ∀ line ∈ (counted (join counter) initial limit step (join iterator)).lines,
      NamesIn named (scan false line.toList) := by
  have hstart : NamesIn named (scan false (startValue initial step).toList) := by
    unfold startValue
    split
    · rw [← join_ofInt]
      exact (Whole.ofInt _).namesIn
    · exact hinitial.operation (by split <;> simp) hstep
  intro line hline
  simp only [lines, counted, Option.toList_some, List.cons_append, List.nil_append, List.mem_cons,
    List.not_mem_nil, or_false] at hline
  rcases hline with rfl | rfl | rfl | rfl
  · exact hiterator.operation (by simp) hlimit.namesIn
  · exact hcounter.operation (by simp) hstart
  · have hhead := namesIn_while (hcounter.operation (x := if step.descends then " > " else " < ")
      (by split <;> simp) hiterator.namesIn)
    rwa [← String.append_assoc, ← String.append_assoc] at hhead
  · have hround := hcounter.operation (x := " = ") (by simp)
      (hcounter.operation (x := if step.descends then " - " else " + ") (by split <;> simp) hstep)
    rwa [← String.append_assoc, ← String.append_assoc] at hround

/-- If the array is not closed, the counter does not close it. -/
theorem each_named (hitem : Whole named item) (harray : Phrase named array)
    (hcounter : Whole named counter)
    (hopen : (∃ t ∈ array, t.isOpen = true) → '\'' ∉ (join counter).toList ∧
      '}' ∉ (join counter).toList) :
    ∀ line ∈ (each (join item) (join array) (join counter)).lines,
      NamesIn named (scan false line.toList) := by
  intro line hline
  simp only [lines, each, Option.toList_some, List.cons_append, List.nil_append, List.mem_cons,
    List.not_mem_nil, or_false] at hline
  rcases hline with rfl | rfl | rfl | rfl
  · have hline : join counter ++ " = size of array " ++ join array =
        join counter ++ " = " ++ ("size of array " ++ join array) := by
      rw [← String.toList_inj]
      simp
    rw [hline]
    refine hcounter.operation (by simp) ?_
    rw [String.toList_append, scan_size]
    simpa [NamesIn, Mark.token, Mark.word] using harray.namesIn
  · exact namesIn_while hcounter.namesIn
  · have hline : ("dec " ++ join counter ++ " =").toList =
        "dec ".toList ++ ((join counter).toList ++ [' ', '=']) := by simp
    rw [hline, scan_dec]
    refine (hcounter.append (fun c hc => .inl (by simpa using hc.symm)) ?_).cons rfl
    rw [scan_equals]
    simp [NamesIn, Mark.token, Mark.op]
  · have hline : join item ++ " = " ++ join array ++ "[" ++ join counter ++ "]" =
        join item ++ " = " ++ (join array ++ ("[" ++ join counter ++ "]")) := by
      rw [← String.toList_inj]
      simp
    rw [hline]
    refine hitem.operation (by simp) ?_
    by_cases hclosed : ∃ t ∈ array, t.isOpen = true
    · obtain ⟨hquote, hbrace⟩ := hopen hclosed
      obtain ⟨k, t, rfl, ht, htopen⟩ := harray.item.exists_of_isOpen hclosed
      obtain ⟨hwritten, hkind⟩ := ht.append_of_isOpen htopen ("[" ++ join counter ++ "]")
        (by simp [hquote]) (by simp [hbrace])
      have hscan : scan false (join [t] ++ ("[" ++ join counter ++ "]")).toList = _ :=
        hwritten.scan_eq false
      rw [hscan]
      rcases hkind with rfl | rfl <;> simp [NamesIn, Token.bare]
    · have hwhole : Whole named array := ⟨harray, by simpa using hclosed⟩
      have hline : (join array ++ ("[" ++ join counter ++ "]")).toList =
          (join array).toList ++ '[' :: ((join counter).toList ++ [']']) := by simp
      rw [hline]
      exact hwhole.append (apart_opening _) (hcounter.index (by simp [NamesIn]))

end Expansion

/-! ## The parameters of a shorthand -/

theorem Token.Cut.closed {b : Bool} {ts us : List Token} (h : Cut b (ts ++ us)) (hne : us ≠ []) :
    ∀ t ∈ ts, t.isOpen = false := by
  induction ts generalizing b with
  | nil => simp
  | cons t ts ih =>
    refine List.forall_mem_cons.mpr ⟨?_, ih h.2⟩
    by_contra hopen
    have hnil := h.1.last (by simpa using hopen)
    exact hne (List.append_eq_nil_iff.mp hnil).2

/-- A parameter is closed if another one is shown behind it. -/
theorem Fills.closed {parameters : List Parameter} {ps : List Piece} {ts : List Token}
    (h : Fills parameters ps ts) {b : Bool} (hcut : Cut b ts) {k n : Nat}
    (hshown : placeholders ps = List.range' k n)
    (hapart : ps.IsChain fun p q => p.index? = none ∨ q.index? = none) {i : Nat} (hki : k ≤ i)
    (hin : i + 1 < k + n) {p : Parameter} (hp : parameters[i]? = some p) :
    ∀ t ∈ p.tokens, t.isOpen = false := by
  induction h generalizing b k n with
  | nil =>
    rw [List.range'_eq_nil_iff.mp hshown.symm] at hin
    omega
  | literal _ _ ih => exact ih hcut.2 hshown hapart.of_cons hki hin
  | @slot index ps q ts hq hts ih =>
    obtain ⟨n, rfl⟩ : ∃ m, n = m + 1 := ⟨n - 1, by omega⟩
    rw [placeholders_slot, List.range'_succ, List.cons.injEq] at hshown
    obtain ⟨rfl, hshown⟩ := hshown
    rcases Nat.eq_or_lt_of_le hki with rfl | hki
    · obtain rfl := Option.some.inj (hq.symm.trans hp)
      -- Another parameter is shown later, so a word follows this one.
      refine hcut.closed ?_
      cases hts with
      | nil =>
        rw [List.range'_eq_nil_iff.mp hshown.symm] at hin
        omega
      | literal _ _ => simp
      | slot _ _ => cases (List.isChain_cons_cons.mp hapart).1 <;> contradiction
    · exact ih hcut.append hshown hapart.of_cons hki (by omega)

set_option maxRecDepth 20000 in
/-- Shorthands show their parameters in order, with words in between. -/
theorem placeholders_builtin : ∀ e ∈ Grammar.builtin.entries, e.form.id.isShorthand = true →
    placeholders e.pieces = List.range' 0 e.form.params.length ∧
      e.pieces.IsChain fun p q => p.index? = none ∨ q.index? = none := by
  rw [Grammar.builtin_eq]
  decide +kernel

namespace Statement

/-- The parameters of a shorthand, as they are cut from a line. -/
structure IsCut (s : Statement) : Prop where
  kinds : s.parameters.map (·.kind) = s.form.shorthandKinds
  values : s.TakesValues
  items : ∀ p ∈ s.parameters, p.kind = .valueList → ∀ item ∈ p.items, Item item ∧ item ⊆ p.tokens
  closed : ∀ i p, s.parameters[i]? = some p → i + 1 < s.parameters.length →
    ∀ t ∈ p.tokens, t.isOpen = false

theorem isCut_of_read {v : Version} {number : Nat} {line : String}
    (hform : (read .builtin v number line).statement.form.isShorthand = true) :
    (read .builtin v number line).statement.IsCut := by
  refine ⟨kinds_of_read builtin_lawful hform, read_takesValues builtin_lawful v number line,
    fun p hp hkind item hitem => ?_, ?_⟩
  · obtain ⟨htakes, hsubset⟩ := read_takes builtin_lawful v number line hp
    rw [hkind] at htakes
    have hrun := (List.mem_filter.mp hitem).1
    have hitems : item ⊆ p.tokens := fun t ht => Parameter.Checked.mem_of_mem_splitCommas hrun ht
    exact ⟨(ParamKind.isValue_of_mem_splitCommas htakes item hrun).item fun t ht =>
      significant_spelled line t (hsubset (hitems ht)), hitems⟩
  · rcases read_cases .builtin v number line with h | h | h | ⟨commented, r, hr, h⟩ <;>
      rw [h] at hform ⊢
    · cases hform
    · cases hform
    · cases hform
    · intro i p hp hi
      obtain ⟨hmem, hfit⟩ := Recognition.of_recognise? hr
      obtain ⟨hshown, hapart⟩ :=
        placeholders_builtin _ (List.mem_filter.mp (Entry.mem_of_mem_sort hmem)).1 hform
      have hlength : (r.fit.parameters r.entry.form).length = r.entry.form.params.length := by
        simpa using congrArg List.length (Recognition.kinds hr)
      have hfills := Entry.fills_of_fit hfit (hshown ▸ List.nodup_range')
      refine hfills.closed (cut_significant line) hshown hapart (Nat.zero_le i) ?_ hp
      rw [Nat.zero_add, ← hlength]
      exact hi

end Statement

/-! ## All shorthands -/

theorem value_iterator (n : Nat) : (iterator n).value = iteratorName n := by
  have htext : ("$" ++ iteratorName n).toList = '$' :: (iteratorName n).toList := by simp
  have hname : (iteratorName n).toList = '_' :: '_' ::
      ("msci_iterator".toList ++ (toString n).toList) := by
    simp [iteratorName, reservedMark]
  rw [← String.toList_inj, Token.value, String.toList_ofList]
  show Text.dropLeft (· == '$') ("$" ++ iteratorName n).toList = _
  rw [htext, Text.dropLeft, List.dropWhile_cons_of_pos rfl, hname,
    List.dropWhile_cons_of_neg (by decide)]

theorem Token.Written.notMem_var {t : Token} (h : t.Written .var) :
    '\'' ∉ t.text.toList ∧ '}' ∉ t.text.toList := by
  have hspelled := h.spelled false
  generalize t.text.toList = cs at hspelled
  cases hspelled with
  | var _ hname =>
    constructor <;> intro hc <;> rcases List.mem_cons.mp hc with hc | hc
    · cases hc
    · cases hname _ hc
    · cases hc
    · cases hname _ hc
  | @symbol _ w _ hop => rcases operatorKind_cases false w with hw | hw <;> cases hop.trans hw

/-- A counter that is not closed is refused. -/
theorem Generated.closed_of_readLine {e : Setting} (he : e.grammar = .builtin) {ts : List Token}
    (hts : Item ts) {number : Nat} {u : Statement}
    (h : readLine e number ("dec " ++ join ts ++ " =") = .ok u) : ∀ t ∈ ts, t.isOpen = false := by
  by_contra hopen
  obtain ⟨k, t, rfl, ht, hopen⟩ := hts.exists_of_isOpen (by simpa using hopen)
  obtain ⟨hwritten, hkind⟩ := ht.append_of_isOpen hopen " =" (by simp) (by simp)
  -- The rest of the line belongs to the counter, so that it is no decrement.
  have hnone : ∀ v ∈ Version.all, ∀ k ∈ [TokenKind.string, TokenKind.gameObject],
      Grammar.builtin.recognise? v (Mark.tokens [.word "dec", .operand k]) = none ∧
        ∀ m ∈ [Mark.word "dec", .operand k], m.isProper = true := by
    rw [Grammar.builtin_eq]
    decide +kernel
  obtain ⟨hmarks, hproper⟩ :=
    hnone e.version (by cases e.version <;> decide) k (by simpa using hkind)
  have hscan : scan false ("dec " ++ (t.text ++ " =")).toList =
      [(Mark.word "dec").token, (Token.mk k 0 0 (t.text ++ " =")).bare] := by
    rw [String.toList_append, scan_dec, hwritten.scan_eq]
  have hrecognise : Grammar.builtin.recognise? e.version
      (significant (tokenize ("dec " ++ (t.text ++ " =")) false)) = none := by
    have hbare : startsBare ("dec " ++ (t.text ++ " =")).toList = true := by
      rw [String.toList_append]
      rfl
    have hcovers := recognise?_of_marks (.cons (Mark.covers_token rfl)
      (.cons hwritten.bare.covers .nil)) hproper e.version
    rw [hmarks, ← hscan, scan, ← tokenize_of_startsBare hbare, Grammar.recognise?_bare] at hcovers
    exact Option.map_eq_none_iff.mp hcovers
  obtain ⟨hcomment, first, rest, htokens, -⟩ := plainLine_dec (t.text ++ " =")
  rw [htokens] at hrecognise
  change readLine e number ("dec " ++ t.text ++ " =") = .ok u at h
  rw [String.append_assoc] at h
  simp [readLine, Statement.read, he, hcomment, htokens, hrecognise] at h

namespace Statement

variable {e : Setting} {s : Statement} {names names' : NameSupply} {x : Expansion}
  {named : String → Prop}

theorem Plans.namesIn (h : s.Plans names x names') (he : e.grammar = .builtin) (hs : s.IsCut)
    (hfresh : names' = names.fresh.2 → named names.fresh.1) (hvars : ∀ t ∈ s.vars, named t.value)
    {number : Nat} {g : Generated} (hread : g.IsRead e number x) :
    ∀ line ∈ x.lines, NamesIn named (scan false line.toList) := by
  have hnames : ∀ p ∈ s.parameters, NamesIn named p.tokens := fun p hp t ht hkind =>
    hvars t (List.mem_filter.mpr ⟨List.mem_flatMap.mpr ⟨p, hp, ht⟩, by simp [hkind]⟩)
  have hphrase : ∀ p ∈ s.parameters, p.IsValue → Phrase named p.tokens :=
    fun p hp hvalue => ⟨hvalue.value.item hvalue.spelled, hnames p hp⟩
  obtain ⟨n, hn, hname⟩ := exists_iterator names
  have hiterator : names' = names.fresh.2 → Whole named [iterator n] := by
    intro hnames
    refine ⟨⟨.operand (written_iterator n), ?_⟩, ?_⟩
    · simpa [NamesIn, value_iterator, ← hname] using fun _ => hfresh hnames
    · simpa using (written_iterator n).not_isOpen (.inl rfl)
  have hloop := h.isLoopShorthand_eq
  cases h with
  | @dim array rest hform hparameters =>
    have hshape : s.parameters.map (·.kind) = [.var, .valueList] := by rw [hs.kinds, hform]; rfl
    rw [hparameters, List.map_cons, List.cons.injEq] at hshape
    obtain ⟨list, rfl, hlist⟩ := List.map_eq_singleton_iff.mp hshape.2
    refine Expansion.dim_named ⟨hphrase array (by simp [hparameters])
      (hs.values.dim hform _ (by simp [hparameters])),
      hs.closed 0 array (by simp [hparameters]) (by simp [hparameters])⟩ fun item hitem => ?_
    obtain ⟨hitem, hsubset⟩ := hs.items list (by simp [hparameters]) hlist item hitem
    exact ⟨hitem, fun t ht => hnames list (by simp [hparameters]) t (hsubset ht)⟩
  | @counted counter initial limit rest step _ hparameters hstep _ =>
    have hvalue := fun p hp => hphrase p hp (hs.values.loop hloop p hp)
    rw [hn]
    show ∀ line ∈ (Expansion.counted (join counter.tokens) initial limit step
      (join [iterator n])).lines, _
    refine Expansion.counted_named
      ⟨hvalue counter (by simp [hparameters]),
        hs.closed 0 counter (by simp [hparameters]) (by simp [hparameters])⟩ (hiterator rfl)
      ⟨hvalue initial (by simp [hparameters]),
        hs.closed 1 initial (by simp [hparameters]) (by simp [hparameters])⟩
      (hvalue limit (by simp [hparameters])) ?_
    rcases hstep with rfl | ⟨p, hp, rfl⟩
    · exact (Whole.ofInt 1).namesIn
    · unfold Expansion.Step.magnitude Expansion.Step.of
      cases p.literalNumber? with
      | some v => exact (Whole.ofInt (.ofNat v.natAbs)).namesIn
      | none => exact (hvalue p hp).namesIn
  | @each item array rest _ hparameters =>
    have hvalue := fun p hp => hphrase p hp (hs.values.loop hloop p hp)
    rw [hn]
    show ∀ line ∈ (Expansion.each (join item.tokens) (join array.tokens) (join [iterator n])).lines,
      _
    refine Expansion.each_named
      ⟨hvalue item (by simp [hparameters]),
        hs.closed 0 item (by simp [hparameters]) (by simp [hparameters])⟩
      (hvalue array (by simp [hparameters])) (hiterator rfl) fun _ => ?_
    exact (written_iterator n).notMem_var
  | @eachCounter item array counter rest _ hparameters =>
    have hvalue := fun p hp => hphrase p hp (hs.values.loop hloop p hp)
    have hcounter := hvalue counter (by simp [hparameters])
    -- The counter is the last parameter, but the line that counts down was read.
    obtain ⟨u, -, hu, -⟩ := List.forall₂_cons_left_iff.mp hread.round
    have hclosed := Generated.closed_of_readLine he hcounter.item hu
    refine Expansion.each_named
      ⟨hvalue item (by simp [hparameters]),
        hs.closed 0 item (by simp [hparameters]) (by simp [hparameters])⟩
      (hvalue array (by simp [hparameters])) ⟨hcounter, hclosed⟩ fun hopen => ?_
    obtain ⟨t, ht, hopen⟩ := hopen
    rw [hs.closed 1 array (by simp [hparameters]) (by simp [hparameters]) t ht] at hopen
    cases hopen

/-- The variables of a line that is not commented out are variables of its text. -/
theorem read_named {g : Grammar} (hg : g.Lawful) {v : Version} {number : Nat} {line : String}
    (hcomment : comment? (tokenize line false) = none)
    (hnames : NamesIn named (scan false line.toList)) :
    ∀ t ∈ (read g v number line).statement.vars, named t.value := by
  have hmark : (stripped line).head? ≠ some '*' := by
    intro hc
    have hsome := isSome_comment? line
    rw [hcomment, hc] at hsome
    cases hsome
  have hscan : (significant (tokenize line false)).map Token.bare = scan false line.toList := by
    obtain ⟨gap, hgap, hsplit⟩ := Text.exists_dropLeft isGap line.toList
    rw [significant_tokenize, code_of_no_mark hmark]
    conv_rhs => rw [hsplit]
    exact (scan_append_left hgap false _).symm
  intro t ht
  obtain ⟨hmem, hkind⟩ := List.mem_filter.mp ht
  obtain ⟨p, hp, htp⟩ := List.mem_flatMap.mp hmem
  have hline := (read_takes hg v number line hp).2 htp
  exact hnames t.bare (hscan ▸ List.mem_map_of_mem hline) (by simpa using hkind)

end Statement

/-- The variables of the statements that a shorthand is expanded to are those of the shorthand and
the one that was drawn for it. -/
theorem Generated.IsRead.named {e : Setting} {s : Statement} {g : Generated} {x : Expansion}
    {names names' : NameSupply} {P : String → Prop} (hread : g.IsRead e s.line x)
    (hplan : s.plan names = .ok (x, names')) (he : e.grammar = .builtin) (hs : s.IsCut)
    (hfresh : names' = names.fresh.2 → P names.fresh.1) (hvars : ∀ t ∈ s.vars, P t.value) :
    ∀ u ∈ g.front ++ g.inner, ∀ t ∈ u.vars, P t.value := by
  intro u hu
  obtain ⟨line, hline, hu⟩ := hread.exists_line hu
  have hlines : ∀ line ∈ x.lines, comment? (tokenize line false) = none := by
    obtain ⟨hbefore, hhead, hround⟩ := (Statement.plan_wellFormed hs.values hplan).1
    intro line hline
    simp only [Expansion.lines, List.mem_append, Option.mem_toList] at hline
    rcases hline with (hline | hline) | hline
    · exact (hbefore line hline).1
    · exact (hhead line hline).1
    · exact (hround line hline).1
  obtain ⟨rfl, -⟩ := readLine_eq_ok hu
  refine Statement.read_named (he ▸ builtin_lawful) (hlines line hline) ?_
  exact (Statement.plans_of_plan hplan).namesIn he hs hfresh hvars hread line hline

/-- The shorthands of a script are cut from its lines. -/
theorem Node.Prepared.isCut {e : Setting} {n : Node} (h : n.Prepared e) (he : e.grammar = .builtin)
    (hpending : Session.isPendingShorthand n = true) : n.statement.IsCut := by
  simp only [Session.isPendingShorthand, Bool.and_eq_true, beq_iff_eq] at hpending
  obtain ⟨⟨⟨horigin, -⟩, -⟩, hform⟩ := hpending
  obtain ⟨number, line, hstatement, -⟩ := h.source horigin
  rw [he] at hstatement
  rw [hstatement] at hform ⊢
  exact Statement.isCut_of_read hform

end GameScript
