import Mathlib.Tactic.Ring
import Mathlib.Tactic.Linarith
import GameScript.Proofs.Execution.Structured

/-!
# The rounds of a loop that counts

A loop that moves a counter on by a step in each round, as long as a limit is ahead of it. `Series`
are the values that the counter takes on, and `valuesAfter` reads them off a run: the value after
each execution of the command that moves the counter.

`Rounds` says what the commands of such a loop do to the counter and the limit. Nothing else is
known about the body, so that a round may be cut or go on forever; all runs of the loop go through
the series as far as they get (`Rounds.values_of_runs`), and a loop whose rounds all end gets to its
end (`Rounds.exists_run`).
-/

namespace GameScript

universe u

/-! ## Counting -/

def Ahead (step limit x : Int) : Prop := if step < 0 then limit < x else x < limit

instance (step limit x : Int) : Decidable (Ahead step limit x) :=
  inferInstanceAs (Decidable (if step < 0 then limit < x else x < limit))

/-- The values that a counter takes on from `x` on, as long as the limit is ahead. -/
inductive Series (step limit : Int) : Int → List Int → Prop
  | ended {x : Int} (h : ¬Ahead step limit x) : Series step limit x []
  | next {x : Int} {vs : List Int} (h : Ahead step limit x)
      (hrest : Series step limit (x + step) vs) :
      Series step limit x ((x + step) :: vs)

/-- The list holds the values `a`, `a + step`, `a + 2 * step`, … with a property. -/
def Lists (a step : Int) (p : Int → Prop) (vs : List Int) : Prop :=
  ∀ (k : Nat) (x : Int), vs[k]? = some x ↔ x = a + k * step ∧ p x

section

variable {step limit x : Int} {vs : List Int}

/-- A limit that is reached stays so. -/
theorem Ahead.of_add (h : Ahead step limit (x + step)) : Ahead step limit x := by
  unfold Ahead at h ⊢
  split at h <;> split <;> omega

theorem Ahead.of_add_mul {k : Nat} (h : Ahead step limit (x + k * step)) : Ahead step limit x := by
  induction k with
  | zero => simpa using h
  | succ k ih =>
    refine ih (Ahead.of_add ?_)
    have hsum : x + (k : Int) * step + step = x + ((k + 1 : Nat) : Int) * step := by
      push_cast
      ring
    rwa [hsum]

/-- The counter takes on all values whose predecessor is before the limit. -/
theorem Series.lists (h : Series step limit x vs) :
    Lists (x + step) step (fun y => Ahead step limit (y - step)) vs := by
  induction h with
  | @ended x h =>
    intro k y
    rw [List.getElem?_nil]
    refine iff_of_false (by simp) ?_
    rintro ⟨rfl, hahead⟩
    have hvalue : x + step + k * step - step = x + k * step := by ring
    rw [hvalue] at hahead
    exact h hahead.of_add_mul
  | @next x vs h hrest ih =>
    intro k y
    cases k with
    | zero =>
      rw [List.getElem?_cons_zero, Option.some.injEq]
      constructor
      · rintro rfl
        exact ⟨by simp, by simpa using h⟩
      · rintro ⟨rfl, -⟩
        simp
    | succ k =>
      have hvalue : x + step + step + (k : Int) * step =
          x + step + ((k + 1 : Nat) : Int) * step := by
        push_cast
        ring
      rw [List.getElem?_cons_succ, ih k y, hvalue]

theorem Lists.unique {a : Int} {p : Int → Prop} {vs ws : List Int} (hv : Lists a step p vs)
    (hw : Lists a step p ws) :
    vs = ws :=
  List.ext_getElem? fun k => Option.ext fun x => (hv k x).trans (hw k x).symm

/-- A counter that moves reaches its limit. -/
theorem exists_series (hstep : step ≠ 0) (limit x : Int) : ∃ vs, Series step limit x vs := by
  -- What is between the counter and the limit gets less.
  let distance (x : Int) : Nat := if step < 0 then (x - limit).toNat else (limit - x).toNat
  induction hn : distance x using Nat.strongRecOn generalizing x with
  | ind n ih =>
    by_cases h : Ahead step limit x
    · have hless : distance (x + step) < n := by
        rw [← hn]
        simp only [distance]
        unfold Ahead at h
        split at h
        · next hneg =>
          rw [if_pos hneg, if_pos hneg]
          omega
        · next hpos =>
          rw [if_neg hpos, if_neg hpos]
          omega
      obtain ⟨vs, hvs⟩ := ih _ hless _ rfl
      exact ⟨_, .next h hvs⟩
    · exact ⟨[], .ended h⟩

/-- Steps that hit the limit do not get past it. -/
theorem Lists.of_dvd {a b : Int} (hstep : step ≠ 0) (hdvd : step ∣ b - a)
    (h : Lists a step (fun y => Ahead step b (y - step)) vs) :
    Lists a step (fun y => ¬Ahead step y b) vs := by
  intro k y
  rw [h k y]
  refine and_congr_right fun hy => ?_
  obtain ⟨c, hc⟩ := hdvd
  have hdiff : b - y = step * (c - k) := by rw [hy]; linarith
  have hvalue : b - (y - step) = step * (c - k + 1) := by linarith
  unfold Ahead
  split
  · next hneg =>
    constructor
    · intro hlt hpast
      have h₁ : c - k < 0 := by nlinarith
      nlinarith
    · intro hle
      have h₁ : 0 ≤ c - k := by
        by_contra hc
        exact hle (by nlinarith)
      nlinarith
  · next hpos =>
    have hpos : 0 < step := by omega
    constructor
    · intro hlt hpast
      have h₁ : c - k < 0 := by nlinarith
      nlinarith
    · intro hle
      have h₁ : 0 ≤ c - k := by
        by_contra hc
        exact hle (by nlinarith)
      nlinarith

end

/-! ## Runs -/

def Meaning.valuesAfter {σ : Type u} {α : Type} (m : Meaning NodeId σ) (value : σ → α)
    (id : NodeId) : σ → List NodeId → List α
  | _, [] => []
  | s, j :: rest =>
    if j = id then value (m.act j s) :: m.valuesAfter value id (m.act j s) rest
    else m.valuesAfter value id (m.act j s) rest

section

variable {σ : Type u} {α : Type} {m : Meaning NodeId σ} {value : σ → α} {id : NodeId} {s : σ}
  {ids : List NodeId}

@[simp] theorem Meaning.valuesAfter_nil : m.valuesAfter value id s [] = [] := rfl

theorem Meaning.replay_keeps (h : ∀ id ∈ ids, ∀ s, value (m.act id s) = value s) :
    value (m.replay s ids) = value s := by
  induction ids generalizing s with
  | nil => rfl
  | cons id ids ih =>
    rw [← h id (List.mem_cons_self ..) s]
    exact ih fun j hj => h j (List.mem_cons_of_mem _ hj)

theorem Meaning.valuesAfter_append (l : List NodeId) : m.valuesAfter value id s (ids ++ l) =
    m.valuesAfter value id s ids ++ m.valuesAfter value id (m.replay s ids) l := by
  induction ids generalizing s with
  | nil => rfl
  | cons j ids ih =>
    rw [List.cons_append, valuesAfter, valuesAfter, ih]
    split <;> rfl

theorem Meaning.valuesAfter_of_notMem (h : id ∉ ids) : m.valuesAfter value id s ids = [] := by
  induction ids generalizing s with
  | nil => rfl
  | cons j ids ih =>
    rw [List.mem_cons, not_or] at h
    rw [valuesAfter, if_neg (Ne.symm h.1), ih h.2]

end

theorem Forest.afterChain_subset (part : NodeId → Part) (f : Forest) :
    (f.afterChain part).ids ⊆ f.ids := by
  induction f with
  | nil => exact List.Subset.refl _
  | node id below after _ ih =>
    rw [afterChain]
    split
    · exact List.Subset.trans ih fun j hj => by simp [hj]
    · exact List.Subset.refl _

namespace Structured

variable {σ : Type u} {t : Tree} {m : Meaning NodeId σ} {f below after : Forest} {s s' : σ}
  {ids : List NodeId} {out : Outcome} {id : NodeId}

theorem Runs.ids_subset (h : Runs t m f s ids out s') : ids ⊆ f.ids := by
  induction h with
  | cut | done => exact List.nil_subset _
  | leave _ | again _ => simp
  | silent _ _ ih => exact fun j hj => by simp [ih hj]
  | plain _ _ ih | refused _ _ _ ih | ended _ _ _ ih | omitted _ _ _ ih =>
    exact List.cons_subset.mpr ⟨by simp, fun j hj => by simp [ih hj]⟩
  | takenOut _ _ _ _ ih | performedOut _ _ _ _ ih | roundCut _ _ _ ih =>
    exact List.cons_subset.mpr ⟨by simp, fun j hj => by simp [ih hj]⟩
  | otherwiseOut _ _ _ ih => exact fun j hj => by simp [ih hj]
  | otherwise _ _ _ ihb ihr =>
    exact List.append_subset.mpr ⟨fun j hj => by simp [ihb hj], fun j hj => by simp [ihr hj]⟩
  | @taken _ _ after _ _ _ _ _ _ _ _ _ _ ihb ihr =>
    have hafter := List.Subset.trans ihr (after.afterChain_subset t.part)
    exact List.cons_subset.mpr ⟨by simp,
      List.append_subset.mpr ⟨fun j hj => by simp [ihb hj], fun j hj => by simp [hafter hj]⟩⟩
  | broken _ _ _ _ ihb ihr | performed _ _ _ _ ihb ihr =>
    exact List.cons_subset.mpr ⟨by simp,
      List.append_subset.mpr ⟨fun j hj => by simp [ihb hj], fun j hj => by simp [ihr hj]⟩⟩
  | round _ _ _ _ _ ihb ihr =>
    exact List.cons_subset.mpr ⟨by simp, List.append_subset.mpr ⟨fun j hj => by simp [ihb hj], ihr⟩⟩

/-- A row is left only by a `break` in it. -/
theorem Runs.exists_leave (h : Runs t m f s ids .left s') : ∃ id ∈ f.ids, t.part id = .leave := by
  generalize hout : Outcome.left = out at h
  induction h with
  | cut | done | again | roundCut => cases hout
  | @leave id _ _ _ hid => exact ⟨id, by simp, hid⟩
  | silent _ _ ih | plain _ _ ih =>
    obtain ⟨j, hj, hleave⟩ := ih hout
    exact ⟨j, by simp [hj], hleave⟩
  | refused _ _ _ ih | ended _ _ _ ih | omitted _ _ _ ih | otherwiseOut _ _ _ ih =>
    obtain ⟨j, hj, hleave⟩ := ih hout
    exact ⟨j, by simp [hj], hleave⟩
  | takenOut _ _ _ _ ih | performedOut _ _ _ _ ih =>
    obtain ⟨j, hj, hleave⟩ := ih hout
    exact ⟨j, by simp [hj], hleave⟩
  | otherwise _ _ _ _ ih | broken _ _ _ _ _ ih | performed _ _ _ _ _ ih =>
    obtain ⟨j, hj, hleave⟩ := ih hout
    exact ⟨j, by simp [hj], hleave⟩
  | @taken _ _ after _ _ _ _ _ _ _ _ _ _ _ ih =>
    obtain ⟨j, hj, hleave⟩ := ih hout
    exact ⟨j, by simp [after.afterChain_subset t.part hj], hleave⟩
  | round _ _ _ _ _ _ ih => exact ih hout

theorem Runs.cases_plain (hid : (t.part id).isPlain = true)
    (h : Runs t m (.node id below after) s ids out s') :
    (ids = [] ∧ out = .cut ∧ s' = s) ∨ ∃ ids', ids = id :: ids' ∧
    Runs t m after (m.act id s) ids' out s' := by
  cases h with
  | cut => exact .inl ⟨rfl, rfl, rfl⟩
  | plain _ hrest => exact .inr ⟨_, rfl, hrest⟩
  | silent hc => cases hp : t.part id <;> simp_all [Part.isPlain, Part.isSilent]
  | leave hc | again hc => simp [hc, Part.isPlain] at hid
  | taken hc | takenOut hc | refused hc =>
    cases hp : t.part id <;> simp_all [Part.isPlain, Part.isTest]
  | otherwise hc | otherwiseOut hc => simp [hc, Part.isPlain] at hid
  | round hc | broken hc | roundCut hc | ended hc => simp [hc, Part.isPlain] at hid
  | omitted hc | performed hc | performedOut hc => simp [hc, Part.isPlain] at hid

theorem Runs.cases_loop (hid : t.part id = .loop)
    (h : Runs t m (.node id below after) s ids out s') :
    (ids = [] ∧ out = .cut ∧ s' = s) ∨
    (¬Holds t m id s ∧ ∃ ids', ids = id :: ids' ∧ Runs t m after (m.act id s) ids' out s') ∨
    (Holds t m id s ∧ ∃ ids₁ out₁ s₁, Runs t m below (m.act id s) ids₁ out₁ s₁ ∧
      ((out₁ = .cut ∧ out = .cut ∧ ids = id :: ids₁ ∧ s' = s₁) ∨
        (out₁ = .left ∧ ∃ ids₂, ids = id :: (ids₁ ++ ids₂) ∧ Runs t m after s₁ ids₂ out s') ∨
        ((out₁ = .done ∨ out₁ = .again) ∧ ∃ ids₂, ids = id :: (ids₁ ++ ids₂) ∧
          Runs t m (.node id below after) s₁ ids₂ out s'))) := by
  cases h with
  | cut => exact .inl ⟨rfl, rfl, rfl⟩
  | ended _ htest hrest => exact .inr (.inl ⟨htest, _, rfl, hrest⟩)
  | roundCut _ htest hbody => exact .inr (.inr ⟨htest, _, _, _, hbody, .inl ⟨rfl, rfl, rfl, rfl⟩⟩)
  | broken _ htest hbody hrest =>
    exact .inr (.inr ⟨htest, _, _, _, hbody, .inr (.inl ⟨rfl, _, rfl, hrest⟩)⟩)
  | round _ htest hbody hout hrest =>
    exact .inr (.inr ⟨htest, _, _, _, hbody, .inr (.inr ⟨hout, _, rfl, hrest⟩)⟩)
  | silent hc | plain hc | taken hc | takenOut hc | refused hc => rw [hid] at hc; cases hc
  | leave hc | again hc | otherwise hc | otherwiseOut hc => rw [hid] at hc; cases hc
  | omitted hc | performed hc | performedOut hc => rw [hid] at hc; cases hc

/-! ## The loop -/

/-- The commands of a loop that counts: its head tests whether the limit is ahead of the counter, a
command at the start of a round moves the counter on, and the body changes neither of the two and
does not leave the loop. -/
structure Rounds (t : Tree) (m : Meaning NodeId σ) (counter limit : σ → Int) (step : Int)
    (loop round : NodeId) (body : Forest) : Prop where
  head : t.part loop = .loop
  plain : (t.part round).isPlain = true
  test : ∀ s, Holds t m loop s ↔ Ahead step (limit s) (counter s)
  asks : ∀ s, counter (m.act loop s) = counter s ∧ limit (m.act loop s) = limit s
  moves : ∀ s, counter (m.act round s) = counter s + step ∧ limit (m.act round s) = limit s
  keeps : ∀ id ∈ body.ids, ∀ s, counter (m.act id s) = counter s ∧ limit (m.act id s) = limit s
  apart : loop ≠ round ∧ round ∉ body.ids
  stays : ∀ s ids s', ¬Runs t m body s ids .left s'

namespace Rounds

variable {counter limit : σ → Int} {step : Int} {loop round : NodeId} {body : Forest}
  {vs : List Int}

/-- A round that has started: the counter has moved on, and stays there. -/
theorem values_of_round (h : Rounds t m counter limit step loop round body) (s : σ)
    (hbody : Runs t m body (m.act round (m.act loop s)) ids out s') :
    m.valuesAfter counter round s (loop :: round :: ids) = [counter s + step] ∧
    counter s' = counter s + step ∧
      limit s' = limit s := by
  have hvalue := (h.moves (m.act loop s)).1.trans (congrArg (· + step) (h.asks s).1)
  have hlimit := (h.moves (m.act loop s)).2.trans (h.asks s).2
  have hmem : ∀ id ∈ ids, id ∈ body.ids := fun id hid => hbody.ids_subset hid
  refine ⟨?_, ?_, ?_⟩
  · rw [Meaning.valuesAfter, if_neg h.apart.1, Meaning.valuesAfter, if_pos rfl, hvalue,
      Meaning.valuesAfter_of_notMem fun hc => h.apart.2 (hmem _ hc)]
  · rw [hbody.state_eq, Meaning.replay_keeps fun id hid s => (h.keeps id (hmem id hid) s).1, hvalue]
  · rw [hbody.state_eq, Meaning.replay_keeps fun id hid s => (h.keeps id (hmem id hid) s).2, hlimit]

/-- All runs go through the series, and those that come to an end go through all of it. -/
theorem values_of_runs (h : Rounds t m counter limit step loop round body)
    (hvs : Series step (limit s) (counter s) vs)
    (hrun : Runs t m (.node loop (.node round .nil body) .nil) s ids out s') :
    m.valuesAfter counter round s ids <+: vs ∧
    (out ≠ .cut → out = .done ∧ m.valuesAfter counter round s ids = vs) := by
  generalize hl : limit s = l at hvs
  generalize hx : counter s = x at hvs
  induction hvs generalizing s ids with
  | ended hpast =>
    rcases hrun.cases_loop h.head with ⟨rfl, rfl, -⟩ | ⟨-, ids', rfl, hrest⟩ | ⟨htest, -⟩
    · exact ⟨by simp, fun hc => absurd rfl hc⟩
    · cases hrest with
      | cut => simp [Meaning.valuesAfter, h.apart.1]
      | done => simp [Meaning.valuesAfter, h.apart.1]
    · exact absurd (hl ▸ hx ▸ (h.test s).mp htest) hpast
  | @next x vs hahead _ ih =>
    rcases hrun.cases_loop h.head with ⟨rfl, rfl, -⟩ | ⟨htest, -⟩ | ⟨-, ids₁, out₁, s₁,
      hround, hrest⟩
    · exact ⟨by simp, fun hc => absurd rfl hc⟩
    · exact absurd ((h.test s).mpr (hl ▸ hx ▸ hahead)) htest
    · rcases hround.cases_plain h.plain with ⟨rfl, rfl, rfl⟩ | ⟨ids₁, rfl, hbody⟩
      · -- The run was cut before the counter moved.
        rcases hrest with ⟨-, rfl, rfl, -⟩ | ⟨hc, -⟩ | ⟨hc, -⟩
        · simp [Meaning.valuesAfter, h.apart.1]
        · cases hc
        · rcases hc with hc | hc <;> cases hc
      · obtain ⟨hvalues, hcounter, hlimit⟩ := h.values_of_round s hbody
        rw [hx] at hvalues hcounter
        rcases hrest with ⟨-, rfl, rfl, -⟩ | ⟨rfl, -⟩ | ⟨-, ids₂, rfl, hrest⟩
        · rw [hvalues]
          exact ⟨⟨vs, rfl⟩, fun hc => absurd rfl hc⟩
        · exact absurd hbody (h.stays _ _ _)
        · obtain ⟨hinitial, hend⟩ := ih hrest (hlimit.trans hl) hcounter
          have hstate : m.replay s (loop :: round :: ids₁) = s₁ := hbody.state_eq.symm
          have hsplit : m.valuesAfter counter round s (loop :: (round :: ids₁ ++ ids₂)) =
              (x + step) :: m.valuesAfter counter round s₁ ids₂ := by
            rw [← List.cons_append, Meaning.valuesAfter_append, hvalues, hstate]
            rfl
          rw [hsplit]
          exact ⟨(List.prefix_cons_inj _).mpr hinitial,
            fun hc => ⟨(hend hc).1, by rw [(hend hc).2]⟩⟩

/-- If every round comes to an end, the loop does. -/
theorem exists_run (h : Rounds t m counter limit step loop round body)
    (hvs : Series step (limit s) (counter s) vs)
    (hbody : ∀ s, ∃ ids out s', out ≠ .cut ∧ Runs t m body s ids out s') :
    ∃ ids s', Runs t m (.node loop (.node round .nil body) .nil) s ids .done s' := by
  generalize hl : limit s = l at hvs
  generalize hx : counter s = x at hvs
  induction hvs generalizing s with
  | ended hpast =>
    exact ⟨_, _, .ended h.head (fun hc => hpast (hl ▸ hx ▸ (h.test s).mp hc)) .done⟩
  | next hahead _ ih =>
    obtain ⟨ids₁, out, s₁, hout, hruns⟩ := hbody (m.act round (m.act loop s))
    obtain ⟨-, hcounter, hlimit⟩ := h.values_of_round s hruns
    obtain ⟨ids₂, s₂, hrest⟩ := ih (hlimit.trans hl) (hcounter.trans (by rw [hx]))
    have hgoes : out = .done ∨ out = .again := by
      cases out with
      | done => exact .inl rfl
      | again => exact .inr rfl
      | left => exact absurd hruns (h.stays _ _ _)
      | cut => exact absurd rfl hout
    exact ⟨_, _, .round h.head ((h.test s).mpr (hl ▸ hx ▸ hahead)) (.plain h.plain hruns)
      hgoes hrest⟩

end Rounds

end Structured

end GameScript
