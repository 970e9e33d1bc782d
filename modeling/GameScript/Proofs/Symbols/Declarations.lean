import GameScript.Proofs.Symbols.Table

/-!
# Declarations in any order

A table is filled by declarations of variables and labels, with any names and kinds and as many as
there are. `SymbolTable.Records` is what one declaration after another keeps: the variables are
those that appear first, as long as there are numbers, and each has its place as its number and the
kind of the first declaration of its name. A variable that is found once is found ever after.
`declarations_keep_table` says it of all runs.
-/

namespace GameScript

inductive Declaration where
  | var (name : String) (kind : SymbolKind)
  | label (name : String)

namespace Declaration

/-- The kind that the declaration asks for, if it is one of this variable. -/
def kind? (name : String) : Declaration → Option SymbolKind
  | .var other kind => if other = name then some kind else none
  | .label _ => none

def firstKind? (name : String) (ds : List Declaration) : Option SymbolKind :=
  ds.findSome? (kind? name)

def varName? : Declaration → Option String
  | .var name _ => some name
  | .label _ => none

def labelName? : Declaration → Option String
  | .var _ _ => none
  | .label name => some name

def numbered (ds : List Declaration) : List String :=
  (ds.filterMap varName?).eraseDups.take SymbolTable.variableLimit

def labelled (ds : List Declaration) : List String := (ds.filterMap labelName?).eraseDups

theorem kind?_eq_some_iff {name : String} {kind : SymbolKind} {d : Declaration} :
    d.kind? name = some kind ↔ d = .var name kind := by
  cases d with
  | label other => simp [kind?]
  | var other kind' => by_cases h : other = name <;> simp [kind?, h]

theorem firstKind?_append (name : String) (ds later : List Declaration) :
    firstKind? name (ds ++ later) = (firstKind? name ds).or (firstKind? name later) := by
  rw [firstKind?, List.findSome?_append]
  rfl

/-- If all declarations of a name agree, the first one does. -/
theorem firstKind?_of_forall {name : String} {kind : SymbolKind} {ds : List Declaration}
    (hmem : .var name kind ∈ ds) (hall : ∀ kind', .var name kind' ∈ ds → kind' = kind) :
    firstKind? name ds = some kind := by
  cases hfirst : firstKind? name ds with
  | none =>
    cases (List.findSome?_eq_none_iff.mp hfirst _ hmem).symm.trans (kind?_eq_some_iff.mpr rfl)
  | some kind' =>
    obtain ⟨d, hd, hkind⟩ := List.exists_of_findSome?_eq_some hfirst
    rw [kind?_eq_some_iff] at hkind
    rw [hall kind' (hkind ▸ hd)]

theorem firstKind?_eq_none {name : String} {ds : List Declaration}
    (h : name ∉ ds.filterMap varName?) :
    firstKind? name ds = none := by
  rw [firstKind?, List.findSome?_eq_none_iff]
  intro d hd
  cases hkind : d.kind? name with
  | none => rfl
  | some kind =>
    rw [kind?_eq_some_iff] at hkind
    exact absurd (List.mem_filterMap.mpr ⟨d, hd, by rw [hkind]; rfl⟩) h

theorem mem_labelled_iff {name : String} {ds : List Declaration} :
    name ∈ labelled ds ↔ .label name ∈ ds := by
  rw [labelled, List.mem_eraseDups, List.mem_filterMap]
  refine ⟨?_, fun hmem => ⟨_, hmem, rfl⟩⟩
  rintro ⟨d, hd, hname⟩
  cases d with
  | var _ _ => cases hname
  | label other => exact Option.some.inj hname ▸ hd

theorem labelled_append_var (ds : List Declaration) (name : String) (kind : SymbolKind) :
    labelled (ds ++ [.var name kind]) = labelled ds := by
  rw [labelled, List.filterMap_append]
  exact congrArg List.eraseDups (List.append_nil _)

theorem labelled_append_label (ds : List Declaration) (name : String) :
    labelled (ds ++ [.label name]) = if name ∈ labelled ds then labelled ds
      else labelled ds ++ [name] := by
  rw [labelled, List.filterMap_append]
  refine (eraseDups_concat (ds.filterMap labelName?) name).trans ?_
  simp only [labelled, List.mem_eraseDups]

theorem numbered_append_label (ds : List Declaration) (name : String) :
    numbered (ds ++ [.label name]) = numbered ds := by
  rw [numbered, List.filterMap_append]
  exact congrArg (fun l => List.take _ (List.eraseDups l)) (List.append_nil _)

/-- A name that was declared, or that no number is left for, adds nothing. -/
theorem numbered_append_var {ds : List Declaration} {name : String} (kind : SymbolKind)
    (h : name ∈ ds.filterMap varName? ∨ SymbolTable.variableLimit ≤ (numbered ds).length) :
    numbered (ds ++ [.var name kind]) = numbered ds := by
  rw [numbered, List.filterMap_append]
  change (ds.filterMap varName? ++ [name]).eraseDups.take _ = _
  rw [eraseDups_concat]
  split
  · rfl
  · next hnew =>
    have hfull := h.resolve_left hnew
    rw [numbered, List.length_take] at hfull
    exact List.take_append_of_le_length (Nat.le_trans hfull (Nat.min_le_right _ _))

/-- A new name is put at the end, if there is a number. -/
theorem numbered_append_new {ds : List Declaration} {name : String} (kind : SymbolKind)
    (hnew : name ∉ numbered ds) (hlimit : (numbered ds).length < SymbolTable.variableLimit) :
    name ∉ ds.filterMap varName? ∧ numbered (ds ++ [.var name kind]) = numbered ds ++ [name] := by
  have hlength : (ds.filterMap varName?).eraseDups.length < SymbolTable.variableLimit := by
    rw [numbered, List.length_take] at hlimit
    omega
  have hall : numbered ds = (ds.filterMap varName?).eraseDups :=
    List.take_of_length_le (Nat.le_of_lt hlength)
  rw [hall, List.mem_eraseDups] at hnew
  refine ⟨hnew, ?_⟩
  rw [hall, numbered, List.filterMap_append]
  change (ds.filterMap varName? ++ [name]).eraseDups.take _ = _
  rw [eraseDups_concat, if_neg hnew]
  exact List.take_of_length_le (by rw [List.length_append]; exact hlength)

end Declaration

namespace SymbolTable

def declare (t : SymbolTable) : Declaration → SymbolTable
  | .var name kind => (t.declareVariable name kind).1
  | .label name => (t.declareLabel name).1

def declareAll (t : SymbolTable) (ds : List Declaration) : SymbolTable := ds.foldl declare t

theorem declareAll_append (t : SymbolTable) (ds later : List Declaration) :
    t.declareAll (ds ++ later) = (t.declareAll ds).declareAll later := List.foldl_append

/-! ## One declaration -/

/-- The table holds what these declarations made of the empty one. -/
structure Records (t : SymbolTable) (ds : List Declaration) : Prop where
  map_name : t.vars.toList.map (·.name) = Declaration.numbered ds
  symbol_eq : ∀ (place : Nat) (symbol : Symbol), t.vars[place]? = some symbol →
    symbol = { name := symbol.name, id := UInt16.ofNat place, kind := symbol.kind }
  kind_eq : ∀ symbol ∈ t.vars, Declaration.firstKind? symbol.name ds = some symbol.kind
  places : Places t.varPlaces (t.vars.toList.map (·.name))
  labels : t.Lists (Declaration.labelled ds)

namespace Records

variable {t : SymbolTable} {ds : List Declaration} {name : String} {kind : SymbolKind}
  {symbol : Symbol}

theorem empty : Records .empty [] where
  map_name := rfl
  symbol_eq := by simp [SymbolTable.empty]
  kind_eq := by simp [SymbolTable.empty]
  places name place := by simp [SymbolTable.empty]
  labels := ⟨rfl, fun name place => by simp [SymbolTable.empty, Declaration.labelled]⟩

theorem size_eq (h : t.Records ds) : t.vars.size = (Declaration.numbered ds).length := by
  rw [← h.map_name, List.length_map, Array.length_toList]

theorem limit (h : t.Records ds) : t.vars.size ≤ variableLimit :=
  h.size_eq ▸ List.length_take_le _ _

theorem findVariable?_iff (h : t.Records ds) :
    t.findVariable? name = some symbol ↔ symbol ∈ t.vars ∧ symbol.name = name :=
  h.places.find?_iff

theorem knows_iff (h : t.Records ds) : t.Knows name ↔ name ∈ Declaration.numbered ds := by
  simp only [Knows, Option.isSome_iff_exists, h.findVariable?_iff, ← h.map_name, List.mem_map,
    Array.mem_toList_iff]

theorem notMem_of_findVariable? (h : t.Records ds) (hfind : t.findVariable? name = none) :
    name ∉ Declaration.numbered ds := by
  rw [← h.knows_iff, Knows, hfind]
  exact Bool.false_ne_true

theorem findLabel?_iff (h : t.Records ds) : t.findLabel? name = some symbol ↔ symbol ∈ t.labels ∧
    symbol.name = name :=
  Places.find?_iff (h.labels.map_name ▸ h.labels.places)

theorem hasLabel_iff (h : t.Records ds) : t.hasLabel name = true ↔ .label name ∈ ds := by
  rw [h.labels.hasLabel_iff, Declaration.mem_labelled_iff]

theorem id_eq (h : t.Records ds) {place : Nat} (hsymbol : t.vars[place]? = some symbol) :
    symbol.id.toNat = place := by
  rw [h.symbol_eq place symbol hsymbol]
  exact UInt16.toNat_ofNat_of_lt'
    (Nat.lt_of_lt_of_le (Array.getElem?_eq_some_iff.mp hsymbol).1 h.limit)

theorem keep (h : t.Records ds) {u : SymbolTable} {d : Declaration} (hvars : u.vars = t.vars)
    (hplaces : u.varPlaces = t.varPlaces) (hnumbered : Declaration.numbered (ds ++ [d]) =
      Declaration.numbered ds)
    (hlabels : u.Lists (Declaration.labelled (ds ++ [d]))) : u.Records (ds ++ [d]) where
  map_name := by rw [hvars, hnumbered, h.map_name]
  symbol_eq := hvars ▸ h.symbol_eq
  kind_eq symbol hsymbol := by
    rw [Declaration.firstKind?_append, h.kind_eq symbol (hvars ▸ hsymbol)]
    rfl
  places := hvars ▸ hplaces ▸ h.places
  labels := hlabels

theorem declareLabel (h : t.Records ds) (name : String) :
    (t.declareLabel name).1.Records (ds ++ [.label name]) := by
  have hlists : (t.declareLabel name).1.Lists (Declaration.labelled (ds ++ [.label name])) := by
    rw [Declaration.labelled_append_label]
    cases hnew : t.hasLabel name with
    | true =>
      rw [SymbolTable.declareLabel, if_pos hnew, if_pos (h.labels.hasLabel_iff.mp hnew)]
      exact h.labels
    | false =>
      rw [if_neg fun hmem => by simp [h.labels.hasLabel_iff.mpr hmem] at hnew]
      exact h.labels.declareLabel hnew
  refine h.keep ?_ ?_ (Declaration.numbered_append_label ds name) hlists <;>
    · unfold SymbolTable.declareLabel
      split <;> rfl

theorem push (h : t.Records ds) (hfind : t.findVariable? name = none)
    (hlimit : t.vars.size < variableLimit) :
    Records { t with
      vars := t.vars.push { name, id := UInt16.ofNat t.vars.size, kind }
      varPlaces := t.varPlaces.insert name t.vars.size } (ds ++ [.var name kind]) := by
  have hnotMem := h.notMem_of_findVariable? hfind
  obtain ⟨hnew, hnumbered⟩ := Declaration.numbered_append_new kind hnotMem (h.size_eq ▸ hlimit)
  have hnames : (t.vars.push { name, id := UInt16.ofNat t.vars.size, kind }).toList.map (·.name) =
      t.vars.toList.map (·.name) ++ [name] := by simp
  refine ⟨by rw [hnames, hnumbered, h.map_name], fun place symbol hsymbol => ?_,
    fun symbol hsymbol => ?_, ?_,
    Declaration.labelled_append_var ds name kind ▸ h.labels.congr rfl rfl⟩
  · rw [Array.getElem?_push] at hsymbol
    split at hsymbol
    · next hplace => rw [← Option.some.inj hsymbol, hplace]
    · exact h.symbol_eq place symbol hsymbol
  · rw [Declaration.firstKind?_append]
    rcases Array.mem_push.mp hsymbol with hsymbol | rfl
    · rw [h.kind_eq symbol hsymbol]
      rfl
    · rw [Declaration.firstKind?_eq_none hnew]
      exact Declaration.firstKind?_of_forall (List.mem_singleton_self _) (by simp)
  · rw [hnames]
    have hplaces := h.places.insert (h.map_name ▸ hnotMem)
    rwa [List.length_map, Array.length_toList] at hplaces

theorem declareVariable (h : t.Records ds) (name : String) (kind : SymbolKind) :
    (t.declareVariable name kind).1.Records (ds ++ [.var name kind]) := by
  have hlabels : t.Lists (Declaration.labelled (ds ++ [.var name kind])) :=
    Declaration.labelled_append_var ds name kind ▸ h.labels
  rcases t.declareVariable_cases name kind with ⟨symbol, hfind, heq⟩ | ⟨hfind, hlimit, heq⟩ | ⟨-,
    hfull, heq⟩ <;> rw [heq]
  · have hmem : name ∈ Declaration.numbered ds := h.knows_iff.mp (by rw [Knows, hfind]; rfl)
    exact h.keep rfl rfl (Declaration.numbered_append_var kind
      (.inl (List.mem_eraseDups.mp (List.mem_of_mem_take hmem))))
      hlabels
  · exact h.push hfind hlimit
  · exact h.keep rfl rfl (Declaration.numbered_append_var kind
      (.inr (h.size_eq ▸ Nat.le_of_not_lt hfull))) hlabels

theorem declare (h : t.Records ds) (d : Declaration) : (t.declare d).Records (ds ++ [d]) := by
  cases d with
  | var name kind => exact h.declareVariable name kind
  | label name => exact h.declareLabel name

/-- A variable that is there stays as it is. -/
theorem findVariable?_declare (h : t.Records ds) (hfind : t.findVariable? name = some symbol)
    (d : Declaration) :
    (t.declare d).findVariable? name = some symbol := by
  obtain ⟨hsymbol, hname⟩ := h.findVariable?_iff.mp hfind
  refine (h.declare d).findVariable?_iff.mpr ⟨?_, hname⟩
  cases d with
  | var other kind =>
    rcases t.declareVariable_cases other kind with ⟨_, -, heq⟩ | ⟨-, -, heq⟩ | ⟨-, -, heq⟩ <;>
      rw [SymbolTable.declare, heq]
    · exact hsymbol
    · exact Array.mem_push_of_mem _ hsymbol
    · exact hsymbol
  | label other =>
    rw [SymbolTable.declare, SymbolTable.declareLabel]
    split <;> exact hsymbol

/-- The number that a declaration gives is the one of the variable. -/
theorem exists_of_declareVariable (h : t.Records ds) {id : UInt16}
    (hid : (t.declareVariable name kind).2 = some id) :
    ∃ symbol, (t.declare (.var name kind)).findVariable? name = some symbol ∧ symbol.id = id := by
  rcases t.declareVariable_cases name kind with ⟨symbol, hfind, heq⟩ | ⟨hfind, hlimit, heq⟩ | ⟨-,
    -, heq⟩ <;>
    rw [heq] at hid
  · exact ⟨symbol, h.findVariable?_declare hfind _, Option.some.inj hid⟩
  · refine ⟨{ name, id := UInt16.ofNat t.vars.size, kind },
      (h.declare _).findVariable?_iff.mpr ⟨?_, rfl⟩,
      Option.some.inj hid⟩
    rw [SymbolTable.declare, heq]
    exact Array.mem_push_self
  · cases hid

/-- A number is missing if all of them are taken. -/
theorem declareVariable_eq_none_iff (h : t.Records ds) : (t.declareVariable name kind).2 = none ↔
    t.vars.size = variableLimit ∧ t.findVariable? name = none := by
  rcases t.declareVariable_cases name kind with ⟨symbol, hfind, heq⟩ | ⟨hfind, hlimit,
    heq⟩ | ⟨hfind, hfull, heq⟩ <;> rw [heq]
  · simp [hfind]
  · simp [Nat.ne_of_lt hlimit]
  · simp [hfind, Nat.le_antisymm h.limit (Nat.le_of_not_lt hfull)]

/-! ## Runs of declarations -/

/-- One declaration after another. What is there before stays as it is. -/
theorem declareAll (h : t.Records ds) (later : List Declaration) :
    (t.declareAll later).Records (ds ++ later) ∧
    ∀ name symbol, t.findVariable? name = some symbol →
      (t.declareAll later).findVariable? name = some symbol := by
  induction later generalizing t ds with
  | nil =>
    rw [List.append_nil]
    exact ⟨h, fun _ _ hfind => hfind⟩
  | cons d later ih =>
    obtain ⟨hrun, hkept⟩ := ih (h.declare d)
    rw [List.append_cons]
    exact ⟨hrun, fun name symbol hfind => hkept name symbol (h.findVariable?_declare hfind d)⟩

theorem knows_declareAll (h : t.Records ds) (hname : t.Knows name) (later : List Declaration) :
    (t.declareAll later).Knows name := by
  obtain ⟨symbol, hfind⟩ := Option.isSome_iff_exists.mp hname
  rw [Knows, (h.declareAll later).2 name symbol hfind]
  rfl

/-- What is recorded of arguments and names. -/
theorem rolls (h : t.Records ds) {arguments names : List String}
    (hnames : ds.filterMap Declaration.varName? = arguments ++ names)
    (hkinds : ∀ name kind, Declaration.firstKind? name ds = some kind →
      kind = if name ∈ arguments then .argument else .var) : t.Rolls arguments names := by
  have hkind : ∀ symbol ∈ t.vars.toList, symbol.kind = if symbol.name ∈ arguments then .argument
      else .var :=
    fun symbol hsymbol => hkinds _ _ (h.kind_eq symbol (Array.mem_toList_iff.mp hsymbol))
  refine ⟨by rw [h.map_name, Declaration.numbered, hnames], fun place symbol hsymbol => ?_,
    fun symbol hsymbol => ?_, fun symbol hsymbol => ?_, h.places, fun symbol hsymbol => ?_⟩
  · exact congrArg Symbol.id (h.symbol_eq place symbol hsymbol)
  · rw [hkind symbol hsymbol]
    split <;> simp
  · rw [hkind symbol hsymbol]
    split <;> simp_all
  · have hlisted :=
      List.mem_map_of_mem (f := fun s : Symbol => (s.name, s.kind))
        (Array.mem_toList_iff.mpr hsymbol)
    rw [h.labels.symbols] at hlisted
    obtain ⟨name, -, heq⟩ := List.mem_map.mp hlisted
    exact (congrArg Prod.snd heq).symm

end Records

end SymbolTable

/-- Whatever is declared, and in whatever order: the names of variables and labels are all
different, the number of a variable is its place, and a name is looked up among the variables or
among the labels only. A variable has the kind of its first declaration and keeps its number. A
number is missing exactly for a new name when all numbers are taken. -/
theorem declarations_keep_table (ds : List Declaration) :
    let t := SymbolTable.empty.declareAll ds
    (t.vars.toList.map (·.name)).Nodup ∧ (t.labels.toList.map (·.name)).Nodup ∧
    (∀ (place : Nat) symbol, t.vars[place]? = some symbol → symbol.id.toNat = place) ∧
    (∀ name symbol, t.findVariable? name = some symbol ↔ symbol ∈ t.vars ∧ symbol.name = name) ∧
    (∀ symbol ∈ t.vars, Declaration.firstKind? symbol.name ds = some symbol.kind) ∧
    (∀ name symbol, t.findLabel? name = some symbol ↔ symbol ∈ t.labels ∧ symbol.name = name) ∧
    (∀ name, (∃ symbol, t.findLabel? name = some symbol) ↔ .label name ∈ ds) ∧
    (∀ name, t.findVariable? name = none → (∀ kind, .var name kind ∉ ds) ∨ t.vars.size = 65536) ∧
    (∀ name kind id, (t.declareVariable name kind).2 = some id → ∀ later kind',
      let u := SymbolTable.empty.declareAll (ds ++ .var name kind :: later)
      (u.declareVariable name kind').2 = some id ∧
        (u.findVariable? name).map (·.kind) =
          Declaration.firstKind? name (ds ++ [.var name kind])) ∧
    ∀ name kind, ((t.declareVariable name kind).2 = none ↔ t.vars.size = 65536 ∧
      t.findVariable? name = none) ∧
      ((t.declareVariable name kind).2 = none → (t.declareVariable name kind).1 = t) := by
  intro t
  have h : t.Records ds := (SymbolTable.Records.empty.declareAll ds).1
  refine ⟨h.places.nodup, h.labels.map_name ▸ h.labels.places.nodup, fun _ _ => h.id_eq,
    fun _ _ => h.findVariable?_iff, h.kind_eq,
    fun _ _ => h.findLabel?_iff, fun name => ?_, fun name hnone => ?_,
    fun name kind id hid later kind' => ?_,
    fun name kind => ⟨h.declareVariable_eq_none_iff, fun hnone => ?_⟩⟩
  · rw [← Declaration.mem_labelled_iff, ← h.labels.map_name, List.mem_map]
    simp only [h.findLabel?_iff, Array.mem_toList_iff]
  · refine Or.symm (or_iff_not_imp_left.mpr fun hsize kind hmem => ?_)
    have hlimit : t.vars.size < SymbolTable.variableLimit := Nat.lt_of_le_of_ne h.limit hsize
    have hnew :=
      Declaration.numbered_append_new kind (h.notMem_of_findVariable? hnone) (h.size_eq ▸ hlimit)
    exact hnew.1 (List.mem_filterMap.mpr ⟨_, hmem, rfl⟩)
  · -- The longer run goes on from the table right behind the declaration.
    intro u
    obtain ⟨symbol, hfind, rfl⟩ := h.exists_of_declareVariable hid
    have hstep := h.declare (.var name kind)
    have hlater := (hstep.declareAll later).2 name symbol hfind
    have hrun : u = (t.declare (.var name kind)).declareAll later :=
      SymbolTable.declareAll_append ..
    obtain ⟨hsymbol, rfl⟩ := hstep.findVariable?_iff.mp hfind
    rw [hrun, SymbolTable.declareVariable, hlater, hstep.kind_eq symbol hsymbol]
    exact ⟨rfl, rfl⟩
  · rcases t.declareVariable_cases name kind with ⟨_, -, heq⟩ | ⟨-, -, heq⟩ | ⟨-, -, heq⟩
    · cases hnone.symm.trans (congrArg Prod.snd heq)
    · cases hnone.symm.trans (congrArg Prod.snd heq)
    · exact congrArg Prod.fst heq

end GameScript
