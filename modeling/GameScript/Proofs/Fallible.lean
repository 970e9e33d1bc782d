/-!
# Computations that may fail

What is known of the parts of a computation that gave a result, and of the steps of a fold.
-/

namespace GameScript

variable {ε α β σ : Type} {x : Except ε α} {f : α → Except ε β}

theorem ok_bind (a : α) (f : α → Except ε β) : (Except.ok a >>= f) = f a := rfl

theorem bind_eq_ok_iff {b : β} : x >>= f = .ok b ↔ ∃ a, x = .ok a ∧ f a = .ok b := by
  cases x with
  | error e =>
    constructor
    · intro h
      cases h
    · rintro ⟨a, ha, -⟩
      cases ha
  | ok a => exact ⟨fun h => ⟨a, rfl, h⟩, by rintro ⟨_, ⟨⟩, h⟩; exact h⟩

theorem map_eq_ok_iff {g : α → β} {b : β} : g <$> x = .ok b ↔ ∃ a, x = .ok a ∧ g a = b := by
  rw [map_eq_pure_bind, bind_eq_ok_iff]
  simp only [pure, Except.pure, Except.ok.injEq]

theorem bind_eq_error {e : ε} (h : x >>= f = .error e) :
    x = .error e ∨ ∃ a, x = .ok a ∧ f a = .error e := by
  cases x with
  | error e' => exact .inl (congrArg Except.error (Except.error.inj h))
  | ok a => exact .inr ⟨a, rfl, h⟩

/-- A test that succeeds tests a result. -/
theorem exists_ok_of_any {P : α → Bool} (h : x.toOption.any P = true) :
    ∃ a, x = .ok a ∧ P a = true := by
  cases x with
  | error e => cases h
  | ok a => exact ⟨a, rfl, h⟩

variable {step : σ → α → Except ε σ} {I : List α → σ → Prop} {l : List α} {s s' : σ}

/-- A fold that can fail succeeds if some relation to what was done so far is kept by each step. -/
theorem foldlM_ok (h : I [] s) (hstep : ∀ done a rest s, l = done ++ a :: rest → I done s →
    ∃ s', step s a = .ok s' ∧ I (done ++ [a]) s') : ∃ s', l.foldlM step s = .ok s' ∧ I l s' := by
  have hrun : ∀ (rest done : List α) (s : σ), l = done ++ rest → I done s →
      ∃ s', rest.foldlM step s = .ok s' ∧ I l s' := by
    intro rest
    induction rest with
    | nil =>
      intro done s hl hs
      refine ⟨s, rfl, ?_⟩
      rwa [hl, List.append_nil]
    | cons a rest ih =>
      intro done s hl hs
      obtain ⟨s', hs', hI⟩ := hstep done a rest s hl hs
      obtain ⟨s'', hs'', hfinal⟩ := ih (done ++ [a]) s' (by simp [hl]) hI
      rw [List.foldlM_cons, hs']
      exact ⟨s'', hs'', hfinal⟩
  exact hrun l [] s rfl h

/-- What holds before a fold that succeeds and is kept by each of its steps holds after it. -/
theorem foldlM_induction (hrun : l.foldlM step s = .ok s') (h : I [] s)
    (hstep : ∀ done a rest u u', l = done ++ a :: rest → I done u → step u a = .ok u' →
      I (done ++ [a]) u') :
    I l s' := by
  have hall : ∀ (rest done : List α) (u : σ), l = done ++ rest → I done u →
      rest.foldlM step u = .ok s' → I l s' := by
    intro rest
    induction rest with
    | nil =>
      intro done u hl hu hend
      obtain rfl := Except.ok.inj hend
      rwa [hl, List.append_nil]
    | cons a rest ih =>
      intro done u hl hu hend
      rw [List.foldlM_cons] at hend
      obtain ⟨u', hone, hend⟩ := bind_eq_ok_iff.mp hend
      exact ih (done ++ [a]) u' (by simp [hl]) (hstep done a rest u u' hl hu hone) hend
  exact hall l [] s rfl h hrun

end GameScript
