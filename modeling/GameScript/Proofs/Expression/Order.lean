import GameScript.Expression
import GameScript.Proofs.Fallible
import GameScript.Proofs.Statement.Renaming
import GameScript.Proofs.Token.Scan

/-!
# Evaluation order

The evaluation order of an expression depends on its operators and on where its operands stand, but
not on which operands these are (`evalOrder_map`) or on the places of the tokens in the line
(`evalOrder_bare`). It leaves no operand out (`mem_evalOrder`) and puts nothing in
(`mem_of_mem_evalOrder`). All of this follows the reading of the expression token by token.
-/

namespace GameScript.Expression

def Yard.map (σ : Token → Token) (s : Yard) : Yard :=
  ⟨s.output.map σ, s.waiting.map σ, s.wantsOperand⟩

def Yard.Waits (σ : Token → Token) (s : Yard) : Prop :=
  ∀ t ∈ s.waiting, (σ t).kind = t.kind ∧ (σ t).text = t.text

section

variable {σ : Token → Token} {output waiting : List Token}

theorem release_map (h : ∀ t ∈ waiting, (σ t).kind = t.kind ∧ (σ t).text = t.text) (level : Nat) :
    release level (output.map σ) (waiting.map σ) =
      ((release level output waiting).1.map σ, (release level output waiting).2.map σ) := by
  induction waiting generalizing output with
  | nil => rfl
  | cons t waiting ih =>
    obtain ⟨hkind, htext⟩ := h t (by simp)
    simp only [List.map_cons, release, level?, hkind, htext]
    split
    · split
      · rw [← List.map_cons, ih fun u hu => h u (by simp [hu])]
      · rfl
    · rfl

theorem releaseGroup?_map (h : ∀ t ∈ waiting, (σ t).kind = t.kind ∧ (σ t).text = t.text) :
    releaseGroup? (output.map σ) (waiting.map σ) =
      (releaseGroup? output waiting).map fun p => (p.1.map σ, p.2.map σ) := by
  induction waiting generalizing output with
  | nil => rfl
  | cons t waiting ih =>
    simp only [List.map_cons, releaseGroup?, (h t (by simp)).2]
    split
    · rfl
    · rw [← List.map_cons, ih fun u hu => h u (by simp [hu])]

theorem releaseAll?_map (h : ∀ t ∈ waiting, (σ t).kind = t.kind ∧ (σ t).text = t.text) :
    releaseAll? (output.map σ) (waiting.map σ) = (releaseAll? output waiting).map (List.map σ) := by
  induction waiting generalizing output with
  | nil => rfl
  | cons t waiting ih =>
    simp only [List.map_cons, releaseAll?, (h t (by simp)).2]
    split
    · rfl
    · rw [← List.map_cons, ih fun u hu => h u (by simp [hu])]

end

variable {output output' waiting : List Token} {t : Token}

/-- What is released was waiting, the last one first. -/
theorem release_eq (level : Nat) (output waiting : List Token) :
    ∃ moved rest, waiting = moved ++ rest ∧
    release level output waiting = (moved.reverse ++ output, rest) := by
  induction waiting generalizing output with
  | nil => exact ⟨[], [], rfl, rfl⟩
  | cons t waiting ih =>
    unfold release
    split
    · split
      · obtain ⟨moved, rest, hsplit, hrelease⟩ := ih (t :: output)
        exact ⟨t :: moved, rest, by rw [hsplit]; rfl, by rw [hrelease]; simp⟩
      · exact ⟨[], t :: waiting, rfl, rfl⟩
    · exact ⟨[], t :: waiting, rfl, rfl⟩

theorem releaseGroup?_eq {waiting' : List Token}
    (h : releaseGroup? output waiting = some (output', waiting')) :
    ∃ moved opening, waiting = moved ++ opening :: waiting' ∧
      output' = moved.reverse ++ output := by
  induction waiting generalizing output with
  | nil => cases h
  | cons t waiting ih =>
    unfold releaseGroup? at h
    split at h
    · cases h
      exact ⟨[], t, rfl, rfl⟩
    · obtain ⟨moved, opening, hsplit, hmoved⟩ := ih h
      exact ⟨t :: moved, opening, by rw [hsplit]; rfl, by simp [hmoved]⟩

theorem releaseAll?_eq (h : releaseAll? output waiting = some output') :
    output' = waiting.reverse ++ output := by
  induction waiting generalizing output with
  | nil =>
    cases h
    rfl
  | cons t waiting ih =>
    unfold releaseAll? at h
    split at h
    · cases h
    · simp [ih h]

/-! ## Reading a token -/

/-- What reading a token does. -/
inductive Reads (s : Yard) (t : Token) : Yard → Prop
  | operand (hkind : t.kind.isOperand = true) (hwants : s.wantsOperand = true) :
      Reads s t { s with output := t :: s.output, wantsOperand := false }
  | wait (hkind : t.kind.isOperand = false) (hwants : s.wantsOperand = true)
      (ht : t.kind = .unaryOp ∨ (t.kind = .binaryOp ∧ t.text = "(")) : Reads s t
      { s with waiting := t :: s.waiting }
  | close {output waiting : List Token} (hkind : t.kind = .binaryOp) (htext : t.text = ")")
      (hwants : s.wantsOperand = false) (hgroup : releaseGroup? s.output s.waiting =
        some (output, waiting)) :
      Reads s t { s with output, waiting }
  | binary {level : Nat} (hkind : t.kind = .binaryOp) (htext : t.text ≠ "(" ∧ t.text ≠ ")")
      (hlevel : binaryLevel? t.text = some level) (hwants : s.wantsOperand = false) :
      Reads s t ⟨(release level s.output s.waiting).1,
        t :: (release level s.output s.waiting).2, true⟩

theorem reads_of_read {s s' : Yard} (h : read s t = .ok s') : Reads s t s' := by
  unfold read at h
  split at h
  · next hoperand =>
    split at h
    · next hwants =>
      cases h
      exact .operand hoperand hwants
    · cases h
  · next hoperand =>
    have hoperand : t.kind.isOperand = false := by simpa using hoperand
    split at h
    · next hunary =>
      split at h
      · next hwants =>
        cases h
        exact .wait hoperand hwants (.inl hunary)
      · cases h
    · split at h
      · next hbinary =>
        split at h
        · next hparen =>
          split at h
          · next hwants =>
            cases h
            exact .wait hoperand hwants (.inr ⟨hbinary, beq_iff_eq.mp hparen⟩)
          · cases h
        · next hparen =>
          split at h
          · next hclose =>
            split at h
            · cases h
            · next hwants =>
              split at h
              · next hgroup =>
                cases h
                exact .close hbinary (beq_iff_eq.mp hclose) (by simpa using hwants) hgroup
              · cases h
          · next hclose =>
            split at h
            · cases h
            · next hlevel =>
              split at h
              · cases h
              · next hwants =>
                cases h
                exact .binary hbinary ⟨by simpa using hparen, by simpa using hclose⟩ hlevel
                  (by simpa using hwants)
      · cases h

theorem Reads.read_eq {s s' : Yard} (h : Reads s t s') : read s t = .ok s' := by
  cases h with
  | operand hkind hwants => simp [read, hkind, hwants]
  | wait hkind hwants ht =>
    rcases ht with hunary | ⟨hbinary, htext⟩
    · simp [read, hunary, hwants, TokenKind.isOperand]
    · simp [read, hbinary, htext, hwants, TokenKind.isOperand]
  | close hkind htext hwants hgroup =>
    simp [read, hkind, htext, hwants, hgroup, TokenKind.isOperand]
  | binary hkind htext hlevel hwants =>
    simp [read, hkind, htext, hlevel, hwants, TokenKind.isOperand]

section

variable {σ : Token → Token} {words : List String} {s s' : Yard} {t : Token}

theorem Reads.map (h : Reads s t s') (ht : t.Renames σ words) (hs : s.Waits σ) :
    Reads (s.map σ) (σ t) (s'.map σ) := by
  cases h with
  | operand hkind hwants => exact .operand (ht.kind ▸ hkind) hwants
  | wait hkind hwants hop =>
    refine .wait (ht.kind ▸ hkind) hwants ?_
    rw [ht.kind, ht.text hkind]
    exact hop
  | close hkind htext hwants hgroup =>
    have hoperand : t.kind.isOperand = false := by rw [hkind]; rfl
    refine .close (ht.kind.trans hkind) ((ht.text hoperand).trans htext) hwants ?_
    show releaseGroup? (s.output.map σ) (s.waiting.map σ) = _
    rw [releaseGroup?_map hs, hgroup]
    rfl
  | @binary level hkind htext hlevel hwants =>
    have hoperand : t.kind.isOperand = false := by rw [hkind]; rfl
    have hrelease : release level (s.map σ).output (s.map σ).waiting = _ := release_map hs level
    have hreads : Reads (s.map σ) (σ t) _ :=
      .binary (ht.kind.trans hkind) ((ht.text hoperand).symm ▸ htext)
        ((ht.text hoperand).symm ▸ hlevel) hwants
    rw [hrelease] at hreads
    exact hreads

theorem Reads.waits (h : Reads s t s') (ht : t.Renames σ words) (hs : s.Waits σ) : s'.Waits σ := by
  cases h with
  | operand => exact hs
  | wait hkind hwants hop =>
    intro u hu
    rcases List.mem_cons.mp hu with rfl | hu
    · exact ⟨ht.kind, ht.text hkind⟩
    · exact hs u hu
  | close hkind htext hwants hgroup =>
    obtain ⟨moved, opening, hsplit, -⟩ := releaseGroup?_eq hgroup
    exact fun u hu => hs u (by simp [hsplit, show u ∈ _ from hu])
  | @binary level hkind htext hlevel hwants =>
    obtain ⟨moved, rest, hsplit, hrelease⟩ := release_eq level s.output s.waiting
    rw [hrelease]
    intro u hu
    rcases List.mem_cons.mp hu with rfl | hu
    · exact ⟨ht.kind, ht.text (by rw [hkind]; rfl)⟩
    · exact hs u (by simp [hsplit, hu])

end

variable {s s' : Yard} {t : Token} {order ts : List Token} {σ : Token → Token} {words : List String}

/-- An operand that was read is not forgotten. -/
theorem Reads.mem_output (h : Reads s t s') :
    s.output ⊆ s'.output ∧ (t.kind.isOperand = true → t ∈ s'.output) := by
  cases h with
  | operand => exact ⟨fun u hu => by simp [hu], fun _ => by simp⟩
  | wait hkind => exact ⟨fun u hu => hu, fun hoperand => by rw [hkind] at hoperand; cases hoperand⟩
  | close hkind htext hwants hgroup =>
    obtain ⟨moved, opening, -, rfl⟩ := releaseGroup?_eq hgroup
    exact ⟨fun u hu => by simp [hu], fun hoperand => by rw [hkind] at hoperand; cases hoperand⟩
  | @binary level hkind =>
    obtain ⟨moved, rest, -, hrelease⟩ := release_eq level s.output s.waiting
    exact ⟨fun u hu =>
      by simp [hrelease, hu], fun hoperand => by rw [hkind] at hoperand; cases hoperand⟩

/-- What is in the yard was there before or was read. -/
theorem Reads.mem_of_mem {u : Token} (h : Reads s t s') (hu : u ∈ s'.output ∨ u ∈ s'.waiting) :
    u = t ∨ u ∈ s.output ∨ u ∈ s.waiting := by
  cases h with
  | operand => simpa [or_assoc] using hu
  | wait =>
    simp only [List.mem_cons] at hu
    grind
  | close _ _ _ hgroup =>
    obtain ⟨moved, opening, hsplit, rfl⟩ := releaseGroup?_eq hgroup
    rw [hsplit]
    grind
  | @binary level =>
    obtain ⟨moved, rest, hsplit, hrelease⟩ := release_eq level s.output s.waiting
    rw [hrelease] at hu
    rw [hsplit]
    grind

/-! ## Reading an expression -/

theorem foldlM_read_cons : (t :: ts).foldlM read s = .ok s' ↔ ∃ s₁, Reads s t s₁ ∧
    ts.foldlM read s₁ = .ok s' := by
  rw [List.foldlM_cons, bind_eq_ok_iff]
  exact exists_congr fun _ => and_congr_left' ⟨reads_of_read, Reads.read_eq⟩

theorem foldlM_read_map (h : ∀ t ∈ ts, t.Renames σ words) (hs : s.Waits σ)
    (hrun : ts.foldlM read s = .ok s') :
    (ts.map σ).foldlM read (s.map σ) = .ok (s'.map σ) ∧ s'.Waits σ := by
  induction ts generalizing s with
  | nil =>
    cases hrun
    exact ⟨rfl, hs⟩
  | cons t ts ih =>
    obtain ⟨s₁, hreads, hrest⟩ := foldlM_read_cons.mp hrun
    have ht := h t (by simp)
    obtain ⟨hmap, hwaits⟩ := ih (fun u hu => h u (by simp [hu])) (hreads.waits ht hs) hrest
    exact ⟨foldlM_read_cons.mpr ⟨s₁.map σ, hreads.map ht hs, hmap⟩, hwaits⟩

theorem mem_foldlM_read (hrun : ts.foldlM read s = .ok s') :
    s.output ⊆ s'.output ∧ ∀ t ∈ ts, t.kind.isOperand = true → t ∈ s'.output := by
  induction ts generalizing s with
  | nil =>
    cases hrun
    exact ⟨fun u hu => hu, by simp⟩
  | cons t ts ih =>
    obtain ⟨s₁, hreads, hrest⟩ := foldlM_read_cons.mp hrun
    obtain ⟨hout, hmem⟩ := ih hrest
    refine ⟨fun u hu => hout (hreads.mem_output.1 hu), fun u hu hkind => ?_⟩
    rcases List.mem_cons.mp hu with rfl | hu
    · exact hout (hreads.mem_output.2 hkind)
    · exact hmem u hu hkind

theorem mem_of_foldlM_read (hrun : ts.foldlM read s = .ok s') {u : Token}
    (hu : u ∈ s'.output ∨ u ∈ s'.waiting) : u ∈ ts ∨ u ∈ s.output ∨ u ∈ s.waiting := by
  induction ts generalizing s with
  | nil =>
    cases hrun
    exact .inr hu
  | cons t ts ih =>
    obtain ⟨s₁, hreads, hrest⟩ := foldlM_read_cons.mp hrun
    rcases ih hrest with hmem | hmem
    · exact .inl (by simp [hmem])
    · rcases hreads.mem_of_mem hmem with rfl | hmem
      · exact .inl (by simp)
      · exact .inr hmem

theorem evalOrder_eq_ok : evalOrder ts = .ok order ↔
    ∃ s output, ts.foldlM read Yard.empty = .ok s ∧ s.wantsOperand = false ∧
      releaseAll? s.output s.waiting = some output ∧ order = output.reverse := by
  unfold evalOrder
  constructor
  · intro h
    obtain ⟨s, hrun, h⟩ := bind_eq_ok_iff.mp h
    unfold finish at h
    split at h
    · cases h
    · next hwants =>
      split at h
      · next output hall =>
        cases h
        exact ⟨s, output, hrun, by simpa using hwants, hall, rfl⟩
      · cases h
  · rintro ⟨s, output, hrun, hwants, hall, rfl⟩
    rw [hrun]
    show finish s = .ok output.reverse
    simp [finish, hwants, hall]

/-- The evaluation order does not depend on which operands stand in the expression. -/
theorem evalOrder_map (h : ∀ t ∈ ts, t.Renames σ words) (horder : evalOrder ts = .ok order) :
    evalOrder (ts.map σ) = .ok (order.map σ) := by
  obtain ⟨s, output, hrun, hwants, hall, rfl⟩ := evalOrder_eq_ok.mp horder
  have hempty : Yard.empty.Waits σ := by simp [Yard.Waits, Yard.empty]
  obtain ⟨hmap, hwaits⟩ := foldlM_read_map h hempty hrun
  refine evalOrder_eq_ok.mpr ⟨s.map σ, output.map σ, hmap, hwants, ?_, by rw [List.map_reverse]⟩
  show releaseAll? (s.output.map σ) (s.waiting.map σ) = _
  rw [releaseAll?_map hwaits, hall]
  rfl

theorem read_bare (s : Yard) (t : Token) :
    read (s.map Token.bare) t.bare = (read s t).map (Yard.map Token.bare) := by
  have hkeep : ∀ u ∈ s.waiting, u.bare.kind = u.kind ∧ u.bare.text = u.text := fun _ _ => ⟨rfl, rfl⟩
  simp only [read, Token.bare, Yard.map, releaseGroup?_map hkeep, release_map hkeep,
    apply_ite (Except.map _)]
  cases releaseGroup? s.output s.waiting <;> cases binaryLevel? t.text <;>
    simp only [apply_ite (Except.map _)] <;> rfl

/-- The places of the tokens do not matter, also for what is wrong with an expression. -/
theorem evalOrder_bare (ts : List Token) :
    evalOrder (ts.map Token.bare) = (evalOrder ts).map (List.map Token.bare) := by
  have hrun : ∀ (ts : List Token) (s : Yard),
      (ts.map Token.bare).foldlM read (s.map Token.bare) =
        (ts.foldlM read s).map (Yard.map Token.bare) := by
    intro ts
    induction ts with
    | nil => exact fun s => rfl
    | cons t ts ih =>
      intro s
      rw [List.map_cons, List.foldlM_cons, List.foldlM_cons, read_bare]
      cases read s t with
      | error => rfl
      | ok s₁ => exact ih s₁
  have hempty : (ts.map Token.bare).foldlM read Yard.empty = _ := hrun ts Yard.empty
  rw [evalOrder, evalOrder, hempty]
  cases ts.foldlM read Yard.empty with
  | error => rfl
  | ok s =>
    show finish (s.map Token.bare) = (finish s).map (List.map Token.bare)
    have hall : releaseAll? (s.map Token.bare).output (s.map Token.bare).waiting = _ :=
      releaseAll?_map fun t _ => ⟨rfl, rfl⟩
    simp only [finish, hall, apply_ite (Except.map _)]
    cases releaseAll? s.output s.waiting with
    | none => rfl
    | some output =>
      simp only [Option.map_some, Except.map, List.map_reverse]
      rfl

/-- Every operand of an expression is evaluated. -/
theorem mem_evalOrder (horder : evalOrder ts = .ok order) (ht : t ∈ ts)
    (hkind : t.kind.isOperand = true) : t ∈ order := by
  obtain ⟨s, output, hrun, -, hall, rfl⟩ := evalOrder_eq_ok.mp horder
  rw [List.mem_reverse]
  rw [releaseAll?_eq hall]
  exact List.mem_append_right _ ((mem_foldlM_read hrun).2 t ht hkind)

/-- Nothing else is evaluated. -/
theorem mem_of_mem_evalOrder (horder : evalOrder ts = .ok order) (ht : t ∈ order) : t ∈ ts := by
  obtain ⟨s, output, hrun, -, hall, rfl⟩ := evalOrder_eq_ok.mp horder
  rw [releaseAll?_eq hall, List.mem_reverse, List.mem_append, List.mem_reverse] at ht
  simpa [Yard.empty] using mem_of_foldlM_read hrun ht.symm

end GameScript.Expression
