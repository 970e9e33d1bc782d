import GameScript.Proofs.Compile.Sides

/-!
# Larger object libraries

A script that is compiled with a larger library of objects loses reports of unknown objects and
nothing else (`larger_library_forgives`).
-/

namespace GameScript

/-- A script that is compiled with a larger library of objects loses reports of unknown objects and
nothing else: the reports that are left are in their order, the variables, the labels and the number
of executed commands are the same, and so are the commands, but for jumps that are resolved only
with the larger library. -/
theorem larger_library_forgives (v : Version) (arguments : List String)
    (objects objects' : Option ObjectLibrary) (hobjects : ObjectLibrary.Within objects objects')
    (lines : List String) :
    ∃ o o', compile ⟨.builtin, v, arguments, objects⟩ lines = .ok o ∧
      compile ⟨.builtin, v, arguments, objects'⟩ lines = .ok o' ∧
      o'.log.toList.Sublist o.log.toList ∧
      o'.log.toList.filter (fun d => d.code != "OBJECT_UNKNOWN") =
        o.log.toList.filter (fun d => d.code != "OBJECT_UNKNOWN") ∧
      o.symbols = o'.symbols ∧ o.standardCount = o'.standardCount ∧
      List.Forall₂ (fun c c' => c = c' ∨ c = c'.unlinked) o.commands.toList o'.commands.toList := by
  have hlines : List.Forall₂ (fun line line' => ∀ number,
      (Statement.read .builtin v number line).bare = (Statement.read .builtin v number line').bare)
        lines lines :=
    List.forall₂_same.mpr fun _ _ _ => rfl
  obtain ⟨o, o', hcompile, hcompile', h⟩ :=
    compile_beside builtin_lawful v arguments hobjects hlines
  exact ⟨o, o', hcompile, hcompile', h.log.sublist, h.log.filter_eq, h.symbols, h.standardCount,
    h.commands⟩

/-- A test that jumps and names an object. -/
def raceScript : List String :=
  ["if $race == \x7bSplit\x7d", "$race = \x7bArgon\x7d", "end", "goto label Stop"]

/-- What is reported with the smaller and with the larger library. -/
theorem raceScript_reported :
    (compile ⟨.builtin, .reunion, [], some (.ofLists ["Argon"] [])⟩ raceScript).toOption.map
      (fun o => o.log.toList.map fun d => (d.code, d.line)) =
        some [("OBJECT_UNKNOWN", 1), ("SYNTAX_UNRECOGNISED", 4)] ∧
    (compile ⟨.builtin, .reunion, [], some (.ofLists ["Split", "Argon"] [])⟩
      raceScript).toOption.map
      (fun o => o.log.toList.map fun d => (d.code, d.line)) =
        some [("SYNTAX_UNRECOGNISED", 4)] := by
  rw [Grammar.builtin_eq]
  decide +kernel

/-- With the smaller library the object of the test is unknown, and with the larger one it is not.
The report about the line that is not understood is left. -/
theorem raceScript_forgiven :
    ObjectLibrary.Within (some (.ofLists ["Argon"] [])) (some (.ofLists ["Split", "Argon"] [])) ∧
    ∃ o o', compile ⟨.builtin, .reunion, [], some (.ofLists ["Argon"] [])⟩ raceScript = .ok o ∧
      compile ⟨.builtin, .reunion, [], some (.ofLists ["Split", "Argon"] [])⟩ raceScript = .ok o' ∧
      o.log.toList.map (fun d => (d.code, d.line)) =
        [("OBJECT_UNKNOWN", 1), ("SYNTAX_UNRECOGNISED", 4)] ∧
      o'.log.toList.map (fun d => (d.code, d.line)) = [("SYNTAX_UNRECOGNISED", 4)] ∧
      o'.log.toList.Sublist o.log.toList ∧
      o'.log.toList.filter (fun d => d.code != "OBJECT_UNKNOWN") =
        o.log.toList.filter (fun d => d.code != "OBJECT_UNKNOWN") ∧
      o.symbols = o'.symbols ∧ o.standardCount = o'.standardCount ∧
      List.Forall₂ (fun c c' => c = c' ∨ c = c'.unlinked) o.commands.toList o'.commands.toList := by
  have hwithin : ObjectLibrary.Within (some (.ofLists ["Argon"] []))
      (some (.ofLists ["Split", "Argon"] [])) := by
    constructor
    · intro name hname
      have hargon : "Argon" = name := by
        simpa [ObjectLibrary.ofLists, Std.TreeSet.mem_ofList] using hname
      rw [← hargon]
      simp [ObjectLibrary.ofLists, Std.TreeSet.mem_ofList]
    · intro name hname
      simp [ObjectLibrary.ofLists] at hname
  obtain ⟨o, o', hcompile, hcompile', hforgiven⟩ :=
    larger_library_forgives .reunion [] _ _ hwithin raceScript
  obtain ⟨hreported, hreported'⟩ := raceScript_reported
  rw [hcompile] at hreported
  rw [hcompile'] at hreported'
  exact ⟨hwithin, o, o', hcompile, hcompile', Option.some.inj hreported, Option.some.inj hreported',
    hforgiven⟩

end GameScript
