import GameScript.Proofs.Compile.Diagnostics

/-!
# Return words

A return word has room for the three parts of a return value side by side, so reading it back gives
the parts that were written (`ReturnValue.decode_encode`), and every word that is read was written
(`ReturnValue.encode_of_decode`). The values that are read are those whose return type is the one of
their conditional, and these are the only ones that a compilation writes, whatever the grammar:
`return_words_read_back`.
-/

namespace GameScript

/-! ## Bytes -/

@[simp] theorem Conditional.ofByte?_byte (c : Conditional) : ofByte? c.byte = some c := by
  cases c <;> rfl

@[simp] theorem ReturnType.ofByte?_byte (t : ReturnType) : ofByte? t.byte = some t := by
  cases t <;> rfl

theorem Conditional.byte_of_ofByte? {b : Nat} {c : Conditional} (h : ofByte? b = some c) :
    c.byte = b :=
  beq_iff_eq.mp (List.find?_some (p := fun c : Conditional => c.byte == b) h)

theorem ReturnType.byte_of_ofByte? {b : Nat} {t : ReturnType} (h : ofByte? b = some t) :
    t.byte = b :=
  beq_iff_eq.mp (List.find?_some (p := fun t : ReturnType => t.byte == b) h)

/-! ## The codec -/

namespace ReturnValue

/-- The parts of a word do not run into each other. -/
theorem toNat_encode (v : ReturnValue) : v.encode.toNat =
    v.returnType.byte * 0x1000000 + v.destination.toNat * 0x100 + v.conditional.byte ∧
      v.returnType.byte < 0x100 ∧ v.conditional.byte < 0x100 := by
  have hreturnType : v.returnType.byte < 0x100 := by cases v.returnType <;> decide
  have hconditional : v.conditional.byte < 0x100 := by cases v.conditional <;> decide
  have hdestination := v.destination.toNat_lt
  refine ⟨?_, hreturnType, hconditional⟩
  rw [encode, UInt32.toNat_ofNat']
  exact Nat.mod_eq_of_lt (by omega)

/-- A word whose bytes name a conditional and a return type is read, if these belong together. -/
theorem decode_eq {word : UInt32} {c : Conditional} {t : ReturnType}
    (hlow : Conditional.ofByte? (word.toNat % 0x100) = some c)
    (hhigh : ReturnType.ofByte? (word.toNat / 0x1000000) = some t) : decode word =
      if t = c.returnType then .ok ⟨t, UInt16.ofNat (word.toNat / 0x100 % 0x10000), c⟩
      else .error (.mismatchedReturnType word t c) := by
  unfold decode
  dsimp only
  rw [hlow]
  dsimp only
  rw [hhigh]

/-- A word is read as the value it was written for, unless the return type is not the one of the
conditional. -/
theorem decode_encode (v : ReturnValue) : decode v.encode =
    if v.returnType = v.conditional.returnType then .ok v
    else .error (.mismatchedReturnType v.encode v.returnType v.conditional) := by
  obtain ⟨hword, hreturnType, hconditional⟩ := v.toNat_encode
  have hdestination := v.destination.toNat_lt
  have hhigh : v.encode.toNat / 0x1000000 = v.returnType.byte := by omega
  have hmiddle : v.encode.toNat / 0x100 % 0x10000 = v.destination.toNat := by omega
  have hlow : v.encode.toNat % 0x100 = v.conditional.byte := by omega
  have hread := decode_eq (hlow ▸ v.conditional.ofByte?_byte) (hhigh ▸ v.returnType.ofByte?_byte)
  rwa [hmiddle, UInt16.ofNat_toNat] at hread

/-- A value that is read from a word has the return type of its conditional, and the word is the one
written for it. -/
theorem encode_of_decode {word : UInt32} {v : ReturnValue} (h : decode word = .ok v) :
    v = of v.conditional v.destination ∧ v.encode = word := by
  unfold decode at h
  dsimp only at h
  split at h
  · cases h
  · next conditional hconditional =>
    split at h
    · cases h
    · next returnType hreturnType =>
      split at h
      · next hsuits =>
        obtain rfl := Except.ok.inj h
        refine ⟨by rw [of, ← hsuits], UInt32.toNat_inj.mp ?_⟩
        have hlow := Conditional.byte_of_ofByte? hconditional
        have hhigh := ReturnType.byte_of_ofByte? hreturnType
        have hmiddle : (UInt16.ofNat (word.toNat / 0x100 % 0x10000)).toNat =
            word.toNat / 0x100 % 0x10000 :=
          UInt16.toNat_ofNat_of_lt' (Nat.mod_lt _ (by decide))
        rw [(toNat_encode _).1, hlow, hhigh, hmiddle]
        omega
      · cases h

theorem decode_encode_of (c : Conditional) (d : UInt16) :
    decode (of c d).encode = .ok (of c d) := by
  rw [decode_encode]
  exact if_pos rfl

end ReturnValue

/-! ## The return values of a script -/

namespace Session

variable {e : Setting} {s s' : Session}

/-- Generated nodes have no return value, and the others keep theirs. -/
theorem expandOne_returnValue {header : NodeId} (h : s.expandOne e header = .ok s')
    (hnone : ∀ id, (s.node id).returnValue = none) (id : NodeId) :
    (s'.node id).returnValue = none := by
  obtain ⟨_, hunfolds⟩ := unfolds_of_expandOne .nil h
  cases hunfolds with
  | reported p =>
    exact (Tree.read_modify s.tree header id Node.returnValue (f := fun n =>
      { n with hasError := true })
      fun _ => rfl).trans (hnone id)
  | @replaced _ _ y _ _ parent hparent =>
    have hheader : header < s.tree.size := Nat.lt_of_not_le fun hle => by
      rw [Tree.parent?, Tree.node_of_size_le hle] at hparent
      cases hparent
    rcases Tree.replace_cases y parent hheader id with ⟨-, hnode⟩ | ⟨-, hnode⟩ | ⟨_, _, -, -, hnode⟩
    · exact (Node.eq_of_unlinked hnode Node.returnValue).trans (hnone id)
    · exact (congrArg Node.returnValue hnode).trans (hnone id)
    · exact congrArg Node.returnValue hnode

theorem expand_returnValue {lines : List String}
    (h : (Session.start (buildTree e lines)).expand e = .ok s) (id : NodeId) :
    (s.node id).returnValue = none := by
  have hstart : ∀ id, ((buildTree e lines).node id).returnValue = none :=
    fun id => nest_forall (P := fun n => n.returnValue = none) rfl (fun _ => rfl)
      (fun _ _ => rfl) id
  exact foldlM_induction (I := fun _ u => ∀ id, (u.node id).returnValue = none) h hstart
    (fun _ _ _ _ _ _ hu hone => expandOne_returnValue hone hu) id

end Session

/-- The return values of a compiled script have the return types of their conditionals. -/
theorem returnValue_of_compile {e : Setting} {lines : List String} {o : Output}
    (h : compile e lines = .ok o) {c : Command} (hc : c ∈ o.commands) {v : ReturnValue}
    (hv : c.returnValue = some v) : ∃ test d, v = .of test d := by
  obtain ⟨s, q, hexpand, hpasses, rfl⟩ := exists_of_compile h
  obtain ⟨u, p, hlink, hresolve, rfl⟩ := Session.runPasses_ok hpasses
  obtain ⟨⟨g, hcarries⟩, -⟩ := Session.expand_carries hexpand
  obtain ⟨-, -, halike, hvalues⟩ := Session.link_names hlink
  have hspans : u.tree.Spans g :=
    (hcarries.spans.alike (Session.examine_grows e s).alike).alike halike
  have hnone : ∀ id, (u.node id).returnValue = none := fun id =>
    (hvalues id).trans
      ((Session.read_assignIndices Node.returnValue (fun _ _ => rfl) (fun _ => rfl) _ id).trans
      (((Session.checks e s).returnValue id).trans (Session.expand_returnValue hexpand id)))
  simp only [Output.ofSession, Session.emit, List.mem_toArray, List.mem_map] at hc
  obtain ⟨id, -, rfl⟩ := hc
  obtain ⟨d, hd, -⟩ := Session.resolve_values hspans hresolve hnone hv
  exact ⟨_, d, hd⟩

/-- Writing return words and reading them are inverse to each other: every conditional and
destination is read back, every word that is read is the one written for what was read, and the
other words are refused. The return values of a compiled script are all read back, whatever it was
compiled with. -/
theorem return_words_read_back :
    (∀ c d, ReturnValue.decode (ReturnValue.of c d).encode = .ok (.of c d)) ∧
    (∀ word v, ReturnValue.decode word = .ok v → v = .of v.conditional v.destination ∧
      v.encode = word) ∧
    (∀ word, (∃ fault, ReturnValue.decode word = .error fault) ↔
      ∀ c d, (ReturnValue.of c d).encode ≠ word) ∧
    ∀ e lines o, compile e lines = .ok o → ∀ c ∈ o.commands, ∀ v, c.returnValue = some v →
      ReturnValue.decode v.encode = .ok v := by
  refine ⟨ReturnValue.decode_encode_of, fun _ _ => ReturnValue.encode_of_decode,
    fun word => ⟨?_, fun hword => ?_⟩, ?_⟩
  · rintro ⟨fault, hfault⟩ c d rfl
    cases hfault.symm.trans (ReturnValue.decode_encode_of c d)
  · cases hdecode : ReturnValue.decode word with
    | error fault => exact ⟨fault, rfl⟩
    | ok v =>
      obtain ⟨hv, hencode⟩ := ReturnValue.encode_of_decode hdecode
      rw [hv] at hencode
      exact absurd hencode (hword _ _)
  · intro e lines o hcompile c hc v hv
    obtain ⟨test, d, rfl⟩ := returnValue_of_compile hcompile hc hv
    exact ReturnValue.decode_encode_of test d

end GameScript
