import GameScript.Proofs.Compile.Sides
import GameScript.Proofs.Layout.Idempotence
import GameScript.Proofs.Layout.Printing

/-!
# Compiling what was printed

A script that compiles is printed as a script that compiles to the same commands
(`rendering_recompiles`), if every line is read as the same statement when it is displayed
(`Steady`): the printed lines are then read like the lines of the script, and lines that are read
alike are compiled alike.
-/

namespace GameScript

/-- Compiling what a successful compilation prints gives the same output again: the same commands
with all their fields, the same symbols and no report, for every release, all arguments, every
library and every width of the indentation, if every line of the script is read as the same
statement when it is displayed. -/
theorem rendering_recompiles (v : Version) (arguments : List String)
    (objects : Option ObjectLibrary) (lines : List String) (o : Output)
    (hcompile : compile ⟨.builtin, v, arguments, objects⟩ lines = .ok o)
    (hok : o.isSuccessful = true) (hsteady : ∀ line ∈ lines, Steady v line) (width : Nat) :
    compile ⟨.builtin, v, arguments, objects⟩ (Layout.render width o.commands.toList) = .ok o := by
  obtain ⟨g, s, q, _, rfl, hfinished, -⟩ :=
    finished_of_compile (e := ⟨.builtin, v, arguments, objects⟩) builtin_lawful hcompile hok
  rw [hfinished.render_eq width]
  have hlines := Layout.forall₂_format hsteady width
  have hsame := ObjectLibrary.within_refl objects
  obtain ⟨o, o', ho, ho', h⟩ := compile_beside builtin_lawful v arguments hsame hlines
  obtain ⟨u', u, hu', hu, h'⟩ := compile_beside builtin_lawful v arguments hsame
    (hlines.flip.imp fun _ _ hline number => (hline number).symm)
  obtain rfl : o = u := Except.ok.inj (ho.symm.trans hu)
  obtain rfl : o' = u' := Except.ok.inj (ho'.symm.trans hu')
  -- Neither output has fewer reports than the other one.
  rw [ho', ← h.antisymm h', ← ho, hcompile]

/-- The sample is printed with its blocks indented, and compiles to the same commands then. -/
theorem sampleScript_recompiles : (∀ line ∈ sampleScript, Steady .albionPrelude line) ∧
    ∃ o, compile ⟨.builtin, .albionPrelude, [], none⟩ sampleScript = .ok o ∧ o.isSuccessful = true ∧
      compile ⟨.builtin, .albionPrelude, [], none⟩ (Layout.render 2 o.commands.toList) = .ok o := by
  have hsteady : ∀ line ∈ sampleScript, Steady .albionPrelude line :=
    Layout.steady_of_separate _ (by decide +kernel)
  obtain ⟨o, hcompile, hok⟩ := sampleScript_compiles
  exact ⟨hsteady, o, hcompile, hok, rendering_recompiles .albionPrelude [] none sampleScript o
    hcompile hok hsteady 2⟩

end GameScript
