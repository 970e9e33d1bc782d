import Mathlib.Data.List.Induction
import Mathlib.Data.List.Nodup
import Mathlib.Tactic.Set
import GameScript.Analysis.Constants
import GameScript.Analysis.Names

/-!
# Variables and labels in a table

The maps of places are in step with the lists of symbols (`SymbolTable.Places`). Variables are
listed once each, where they appear first, as long as there are numbers, and they are numbered by
their places (`SymbolTable.Rolls`). Labels are listed in the order of their definitions
(`SymbolTable.Lists`). Whatever is noted about symbols later leaves the lists alone.
-/

namespace GameScript

theorem eraseDups_concat (l : List String) (n : String) :
    (l ++ [n]).eraseDups = if n ∈ l then l.eraseDups else l.eraseDups ++ [n] := by
  rw [List.eraseDups_append]
  by_cases h : n ∈ l
  · simp [List.removeAll, h]
  · simp [List.removeAll, h, List.eraseDups_cons]

theorem nodup_eraseDups (l : List String) : l.eraseDups.Nodup := by
  induction l using List.reverseRecOn with
  | nil => exact List.nodup_nil
  | append_singleton l n ih =>
    rw [eraseDups_concat]
    split
    · exact ih
    · next hnew =>
      refine List.nodup_append.mpr ⟨ih, by simp, fun m hm k hk heq => hnew ?_⟩
      rw [← List.mem_singleton.mp hk, ← heq]
      exact List.mem_eraseDups.mp hm

theorem eraseDups_of_nodup {l : List String} (h : l.Nodup) : l.eraseDups = l := by
  induction l using List.reverseRecOn with
  | nil => rfl
  | append_singleton l n ih =>
    obtain ⟨hl, -, hn⟩ := List.nodup_append.mp h
    rw [eraseDups_concat, if_neg fun hmem => hn n hmem n (by simp) rfl, ih hl]

theorem length_eraseDups_le (l m : List String) :
    l.eraseDups.length ≤ (l ++ m).eraseDups.length := by
  rw [List.eraseDups_append, List.length_append]
  exact Nat.le_add_right _ _

/-- Elements of a list without repeats that one element alone satisfies. -/
theorem filter_eq_singleton {α : Type} [DecidableEq α] {l : List α} {p : α → Bool} {a : α}
    (hl : l.Nodup) (ha : a ∈ l) (hp : ∀ x ∈ l, p x = true ↔ x = a) : l.filter p = [a] := by
  have heq : l.filter p = l.filter (· == a) :=
    List.filter_congr fun x hx => by rw [Bool.eq_iff_iff, hp x hx, beq_iff_eq]
  rw [heq, List.filter_beq, List.count_eq_one_of_mem hl ha, List.replicate_one]

namespace SymbolTable

/-- The map tells the place of every name of the list, and knows no other names. -/
def Places (places : Std.TreeMap String Nat) (l : List String) : Prop :=
  ∀ (name : String) (place : Nat), places[name]? = some place ↔ l[place]? = some name

/-- A new name is put at the end of the list. -/
theorem Places.insert {places : Std.TreeMap String Nat} {l : List String} (h : Places places l)
    {name : String} (hnew : name ∉ l) : Places (places.insert name l.length) (l ++ [name]) := by
  intro other place
  simp only [Std.TreeMap.getElem?_insert, Std.LawfulEqCmp.compare_eq_iff_eq]
  by_cases hother : name = other
  · subst hother
    rw [if_pos rfl, Option.some.injEq]
    constructor
    · rintro rfl
      simp
    · intro hplace
      rcases Nat.lt_trichotomy place l.length with hlt | heq | hgt
      · rw [List.getElem?_append_left hlt] at hplace
        exact absurd (List.mem_of_getElem? hplace) hnew
      · exact heq.symm
      · rw [List.getElem?_eq_none (by simpa [Nat.succ_le_iff] using hgt)] at hplace
        cases hplace
  · rw [if_neg hother, h]
    by_cases hlt : place < l.length
    · rw [List.getElem?_append_left hlt]
    · rw [List.getElem?_append_right (Nat.le_of_not_lt hlt),
        List.getElem?_eq_none (Nat.le_of_not_lt hlt)]
      constructor
      · intro hplace
        cases hplace
      · intro hplace
        exact absurd (List.mem_singleton.mp (List.mem_of_getElem? hplace)).symm hother

/-- A name is found where it stands. -/
theorem Places.find?_iff {places : Std.TreeMap String Nat} {symbols : Array Symbol}
    (h : Places places (symbols.toList.map (·.name))) {name : String} {symbol : Symbol} :
    (places[name]?.bind fun place => symbols[place]?) = some symbol ↔ symbol ∈ symbols ∧
    symbol.name = name := by
  rw [Option.bind_eq_some_iff]
  constructor
  · rintro ⟨place, hplace, hsymbol⟩
    have hname := (h name place).mp hplace
    rw [List.getElem?_map, Array.getElem?_toList, hsymbol] at hname
    exact ⟨Array.mem_of_getElem? hsymbol, Option.some.inj hname⟩
  · rintro ⟨hmem, rfl⟩
    obtain ⟨place, hsymbol⟩ := Array.getElem?_of_mem hmem
    refine ⟨place, (h symbol.name place).mpr ?_, hsymbol⟩
    rw [List.getElem?_map, Array.getElem?_toList, hsymbol, Option.map_some]

theorem Places.nodup {places : Std.TreeMap String Nat} {l : List String} (h : Places places l) :
    l.Nodup := by
  rw [List.nodup_iff_getElem?_ne_getElem?]
  intro i j hij hj heq
  rw [List.getElem?_eq_getElem hj] at heq
  have hi := (h l[j] i).mpr heq
  have hj := (h l[j] j).mpr (List.getElem?_eq_getElem hj)
  exact absurd (Option.some.inj (hi.symm.trans hj)) (Nat.ne_of_lt hij)

theorem findVariable?_congr {t u : SymbolTable} (hvars : u.vars = t.vars)
    (hplaces : u.varPlaces = t.varPlaces) (name : String) :
    u.findVariable? name = t.findVariable? name := by
  rw [findVariable?, findVariable?, hvars, hplaces]

def Knows (t : SymbolTable) (name : String) : Prop := (t.findVariable? name).isSome = true

/-- What a declaration does: it finds the name, or it appends it, or there is no number left. -/
theorem declareVariable_cases (t : SymbolTable) (name : String) (kind : SymbolKind) :
    (∃ symbol, t.findVariable? name = some symbol ∧
      t.declareVariable name kind = (t, some symbol.id)) ∨
      (t.findVariable? name = none ∧ t.vars.size < variableLimit ∧ t.declareVariable name kind =
        ({ t with
            vars := t.vars.push { name, id := UInt16.ofNat t.vars.size, kind }
            varPlaces := t.varPlaces.insert name t.vars.size }, some (UInt16.ofNat t.vars.size))) ∨
      (t.findVariable? name = none ∧ ¬t.vars.size < variableLimit ∧
        t.declareVariable name kind = (t, none)) := by
  unfold declareVariable
  cases hfind : t.findVariable? name with
  | some symbol => exact .inl ⟨symbol, rfl, rfl⟩
  | none =>
    by_cases hlimit : t.vars.size < variableLimit
    · exact .inr (.inl ⟨rfl, hlimit, if_pos hlimit⟩)
    · exact .inr (.inr ⟨rfl, hlimit, if_neg hlimit⟩)

/-! ## Variables in the order of appearance -/

/-- The variables of the table are these arguments and names, each once and numbered by its place,
as long as there are numbers. -/
structure Rolls (t : SymbolTable) (arguments names : List String) : Prop where
  map_name : t.vars.toList.map (·.name) = (arguments ++ names).eraseDups.take variableLimit
  number : ∀ (place : Nat) (symbol : Symbol), t.vars[place]? = some symbol →
    symbol.id = UInt16.ofNat place
  kind_ne_label : ∀ symbol ∈ t.vars.toList, symbol.kind ≠ .label
  argument_iff : ∀ symbol ∈ t.vars.toList, symbol.kind = .argument ↔ symbol.name ∈ arguments
  places : Places t.varPlaces (t.vars.toList.map (·.name))
  labels : ∀ symbol ∈ t.labels, symbol.kind = .label

namespace Rolls

variable {t : SymbolTable} {arguments names : List String} {name : String} {symbol : Symbol}

theorem limit (h : t.Rolls arguments names) : t.vars.size ≤ variableLimit := by
  rw [← Array.length_toList, ← List.length_map (·.name), h.map_name]
  exact List.length_take_le _ _

theorem id_eq (h : t.Rolls arguments names) {place : Nat} (hsymbol : t.vars[place]? = some symbol) :
    symbol.id.toNat = place := by
  rw [h.number place symbol hsymbol]
  exact UInt16.toNat_ofNat_of_lt'
    (Nat.lt_of_lt_of_le (Array.getElem?_eq_some_iff.mp hsymbol).1 h.limit)

/-- A variable that is found has the name, and stands at the place that its number tells. -/
theorem of_findVariable? (h : t.Rolls arguments names)
    (hfind : t.findVariable? name = some symbol) :
    t.vars[symbol.id.toNat]? = some symbol ∧ symbol.name = name := by
  obtain ⟨hmem, hname⟩ := h.places.find?_iff.mp hfind
  obtain ⟨place, hsymbol⟩ := Array.getElem?_of_mem hmem
  rw [h.id_eq hsymbol]
  exact ⟨hsymbol, hname⟩

theorem getElem?_of_findVariable? (h : t.Rolls arguments names)
    (hfind : t.findVariable? name = some symbol) :
    ((arguments ++ names).eraseDups.take variableLimit)[symbol.id.toNat]? = some name := by
  obtain ⟨hplace, hname⟩ := h.of_findVariable? hfind
  rw [← h.map_name, List.getElem?_map, Array.getElem?_toList, hplace, Option.map_some, hname]

/-- A variable is an argument, or another name. -/
theorem kind_cases (h : t.Rolls arguments names) (hsymbol : symbol ∈ t.vars.toList) :
    (symbol.kind = .argument ∧ symbol.name ∈ arguments) ∨
      (symbol.kind ≠ .argument ∧ symbol.name ∉ arguments ∧ symbol.name ∈ names) := by
  have hmem := List.mem_map_of_mem (f := (·.name)) hsymbol
  rw [h.map_name] at hmem
  have hlisted := List.mem_append.mp (List.mem_eraseDups.mp (List.mem_of_mem_take hmem))
  by_cases hkind : symbol.kind = .argument
  · exact .inl ⟨hkind, (h.argument_iff symbol hsymbol).mp hkind⟩
  · have hargument : symbol.name ∉ arguments :=
      fun hc => hkind ((h.argument_iff symbol hsymbol).mpr hc)
    exact .inr ⟨hkind, hargument, hlisted.resolve_left hargument⟩

/-- What is noted about variables leaves their names and numbers alone, and no variable becomes an
argument by it. -/
theorem mapVariables (h : t.Rolls arguments names) {f : Symbol → Symbol}
    (hname : ∀ s, (f s).name = s.name) (hid : ∀ s, (f s).id = s.id)
    (hkind : ∀ s, (f s).kind = s.kind ∨ s.kind = .var ∧ (f s).kind = .constant) :
    (t.mapVariables f).Rolls arguments names := by
  have hnames : (t.mapVariables f).vars.toList.map (·.name) = t.vars.toList.map (·.name) := by
    simp [SymbolTable.mapVariables, Function.comp_def, hname]
  refine ⟨hnames.trans h.map_name, fun place symbol hsymbol => ?_, fun symbol hsymbol => ?_,
    fun symbol hsymbol => ?_, hnames ▸ h.places, h.labels⟩
  · rw [SymbolTable.mapVariables, Array.getElem?_map] at hsymbol
    obtain ⟨old, hold, rfl⟩ := Option.map_eq_some_iff.mp hsymbol
    rw [hid, h.number place old hold]
  all_goals
    rw [SymbolTable.mapVariables, Array.toList_map] at hsymbol
    obtain ⟨old, hold, rfl⟩ := List.mem_map.mp hsymbol
  · rcases hkind old with hsame | ⟨-, hconstant⟩
    · exact hsame ▸ h.kind_ne_label old hold
    · simp [hconstant]
  · rw [hname, ← h.argument_iff old hold]
    rcases hkind old with hsame | ⟨hvar, hconstant⟩
    · rw [hsame]
    · simp [hvar, hconstant]

/-- It does not matter which labels there are. -/
theorem congr (h : t.Rolls arguments names) {u : SymbolTable} (hvars : u.vars = t.vars)
    (hplaces : u.varPlaces = t.varPlaces) (hlabels : ∀ symbol ∈ u.labels, symbol.kind = .label) :
    u.Rolls arguments names :=
  ⟨hvars ▸ h.map_name, hvars ▸ h.number, hvars ▸ h.kind_ne_label, hvars ▸ h.argument_iff,
    hvars ▸ hplaces ▸ h.places, hlabels⟩

theorem modifyLabel (h : t.Rolls arguments names) (label : String) {f : Symbol → Symbol}
    (hf : ∀ s : Symbol, (f s).kind = s.kind) : (t.modifyLabel label f).Rolls arguments names := by
  unfold SymbolTable.modifyLabel
  split
  · refine h.congr rfl rfl fun symbol hsymbol => ?_
    obtain ⟨i, hi⟩ := Array.getElem?_of_mem hsymbol
    rw [Array.getElem?_modify] at hi
    split at hi
    · obtain ⟨old, hold, rfl⟩ := Option.map_eq_some_iff.mp hi
      exact (hf old).trans (h.labels old (Array.mem_of_getElem? hold))
    · exact h.labels symbol (Array.mem_of_getElem? hi)
  · exact h

/-! ## The list of all symbols -/

/-- The variables among the symbols are those that were declared. -/
theorem filter_toList (h : t.Rolls arguments names) :
    (t.toList.filter fun s => s.kind ≠ .label) = t.vars.toList := by
  rw [SymbolTable.toList, List.filter_append,
    List.filter_eq_self.mpr (by simpa using h.kind_ne_label),
    List.filter_eq_nil_iff.mpr (by simpa using h.labels), List.append_nil]

theorem filter_label_toList (h : t.Rolls arguments names) :
    (t.toList.filter fun s => s.kind = .label) = t.labels.toList := by
  rw [SymbolTable.toList, List.filter_append,
    List.filter_eq_nil_iff.mpr (by simpa using h.kind_ne_label),
    List.filter_eq_self.mpr (by simpa using h.labels), List.nil_append]

end Rolls

/-! ## The table of labels -/

structure Lists (t : SymbolTable) (names : List String) : Prop where
  symbols : t.labels.toList.map (fun s => (s.name, s.kind)) = names.map fun name => (name, .label)
  places : Places t.labelPlaces names

namespace Lists

variable {t u : SymbolTable} {names : List String} {name other : String}

theorem congr (h : t.Lists names) (hlabels : u.labels = t.labels)
    (hplaces : u.labelPlaces = t.labelPlaces) :
    u.Lists names :=
  ⟨hlabels ▸ h.symbols, hplaces ▸ h.places⟩

theorem mapVariables (h : t.Lists names) (f : Symbol → Symbol) : (t.mapVariables f).Lists names :=
  h.congr rfl rfl

theorem size_eq (h : t.Lists names) : t.labels.size = names.length := by
  have hlength := congrArg List.length h.symbols
  simpa using hlength

theorem hasLabel_iff (h : t.Lists names) : t.hasLabel name = true ↔ name ∈ names := by
  rw [hasLabel, Std.TreeMap.contains_eq_isSome_getElem?, Option.isSome_iff_exists,
    List.mem_iff_getElem?]
  exact exists_congr fun place => h.places name place

theorem declareLabel (h : t.Lists names) (hnew : t.hasLabel name = false) :
    (t.declareLabel name).1.Lists (names ++ [name]) := by
  have hnotMem : name ∉ names := fun hmem => by
    rw [← h.hasLabel_iff, hnew] at hmem
    cases hmem
  simp only [SymbolTable.declareLabel, hnew, Bool.false_eq_true, if_false]
  refine ⟨?_, ?_⟩
  · simp only [Array.toList_push, List.map_append, h.symbols, List.map_cons, List.map_nil]
  · rw [h.size_eq]
    exact h.places.insert hnotMem

/-- A label that was declared stands at its place. -/
theorem exists_getElem? (h : t.Lists names) (hname : name ∈ names) :
    ∃ place symbol, t.labelPlaces[name]? = some place ∧ t.labels[place]? = some symbol ∧
      symbol.name = name ∧
      symbol.kind = .label := by
  obtain ⟨place, hplace⟩ := List.getElem?_of_mem hname
  have hsymbol := congrArg (fun l : List (String × SymbolKind) => l[place]?) h.symbols
  simp only [List.getElem?_map, hplace, Option.map_some, Array.getElem?_toList] at hsymbol
  obtain ⟨symbol, hsymbol, heq⟩ := Option.map_eq_some_iff.mp hsymbol
  obtain ⟨hsymbolName, hkind⟩ := Prod.mk.inj heq
  exact ⟨place, symbol, (h.places name place).mpr hplace, hsymbol, hsymbolName, hkind⟩

theorem map_name (h : t.Lists names) : t.labels.toList.map (·.name) = names := by
  have hfirst := congrArg (List.map Prod.fst) h.symbols
  simpa [Function.comp_def] using hfirst

/-- A label that is found is the only one with its name. -/
theorem filter_eq (h : t.Lists names) (hname : name ∈ names) {symbol : Symbol}
    (hfind : t.findLabel? name = some symbol) :
    t.labels.toList.filter (fun s => s.name == name) = [symbol] := by
  obtain ⟨place, found, hplace, hsymbol, hfound, -⟩ := h.exists_getElem? hname
  obtain rfl : found = symbol := by
    rw [findLabel?, hplace] at hfind
    exact Option.some.inj (hsymbol.symm.trans hfind)
  have hnodup : (t.labels.toList.map (·.name)).Nodup := h.map_name ▸ h.places.nodup
  have hmem : found ∈ t.labels.toList := Array.mem_toList_iff.mpr (Array.mem_of_getElem? hsymbol)
  refine filter_eq_singleton (List.Nodup.of_map _ hnodup) hmem fun s hs => ?_
  rw [beq_iff_eq, ← hfound]
  exact ⟨fun heq => List.inj_on_of_nodup_map hnodup hs hmem heq, fun heq => heq ▸ rfl⟩

theorem modifyLabel (h : t.Lists names) (hname : name ∈ names) {f : Symbol → Symbol}
    (hf : ∀ s, (f s).name = s.name ∧ (f s).kind = s.kind) :
    (t.modifyLabel name f).Lists names ∧ (t.modifyLabel name f).findLabel? name =
      (t.findLabel? name).map f ∧
      ∀ other, other ≠ name → (t.modifyLabel name f).findLabel? other = t.findLabel? other := by
  obtain ⟨place, symbol, hplace, hsymbol, -⟩ := h.exists_getElem? hname
  have heq : t.modifyLabel name f = { t with labels := t.labels.modify place f } := by
    rw [SymbolTable.modifyLabel, hplace]
  rw [heq]
  refine ⟨⟨?_, h.places⟩, ?_, fun other hother => ?_⟩
  · rw [← h.symbols]
    refine List.ext_getElem? fun i => ?_
    simp only [List.getElem?_map, Array.getElem?_toList, Array.getElem?_modify]
    split
    · cases t.labels[i]? with
      | none => rfl
      | some s => exact congrArg some (Prod.ext (hf s).1 (hf s).2)
    · rfl
  · simp [findLabel?, hplace, hsymbol, Array.getElem?_modify]
  · simp only [findLabel?]
    cases hcase : t.labelPlaces[other]? with
    | none => rfl
    | some place' =>
      -- Two names never have the same place.
      have hne : place ≠ place' := by
        rintro rfl
        have hsame := ((h.places other place).mp hcase).symm.trans ((h.places name place).mp hplace)
        exact hother (Option.some.inj hsame)
      simp [Array.getElem?_modify, hne]

end Lists

end SymbolTable

end GameScript
