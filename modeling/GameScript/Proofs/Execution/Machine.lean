import Mathlib.Logic.Relation
import GameScript.Compile

/-!
# The engine that executes commands

A machine for compiled scripts. It holds a place among the executed commands and a state of which
nothing is known: what a command does to the state and what it answers is a parameter. The machine
starts with the first command and stops behind the last one.

It records the places of the commands that it executes. Hidden jumps are no commands of the script:
they do nothing and are not recorded.
-/

namespace GameScript

universe u

/-- What the executed commands mean: the effect of each of them and its answer in a state. -/
structure Meaning (ι : Type) (σ : Type u) where
  act : ι → σ → σ
  answer : ι → σ → Bool

def Meaning.via {ι κ : Type} {σ : Type u} (m : Meaning κ σ) (f : ι → κ) : Meaning ι σ where
  act i := m.act (f i)
  answer i := m.answer (f i)

def Meaning.replay {ι : Type} {σ : Type u} (m : Meaning ι σ) (s : σ) (trace : List ι) : σ :=
  trace.foldl (fun s i => m.act i s) s

/-- Where the engine goes on after a command at this place: a test jumps depending on its answer, a
jump always, and all other commands lead to the next place. -/
def Command.follow (c : Command) (place : Nat) (answer : Bool) : Nat :=
  match c.returnValue, c.jump with
  | some ⟨.jumpIfTrue, d, _⟩, _ => if answer then d.toNat else place + 1
  | some ⟨.jumpIfFalse, d, _⟩, _ => if answer then place + 1 else d.toNat
  | _, some d => d.toNat
  | _, none => place + 1

def Output.at? (o : Output) (place : Nat) : Option Command :=
  o.commands.toList.find? fun c => c.index.map UInt16.toNat == some place

namespace Machine

variable {σ : Type u}

structure Config (σ : Type u) where
  place : Nat
  state : σ
  /-- The places of the commands executed so far. -/
  trace : List Nat

/-- Execute the command at the current place. A machine behind the last command has stopped. -/
def step (o : Output) (m : Meaning Nat σ) (c : Config σ) : Option (Config σ) :=
  if c.place = o.standardCount then none
  else
    (o.at? c.place).map fun command =>
      let place := command.follow c.place (m.answer c.place c.state)
      if command.origin = .hiddenJump then { c with place }
      else ⟨place, m.act c.place c.state, c.trace ++ [c.place]⟩

abbrev Steps (o : Output) (m : Meaning Nat σ) : Config σ → Config σ → Prop :=
  Relation.ReflTransGen fun c c' => step o m c = some c'

/-- The machine gets to a place with this state, having executed these commands. -/
def Reaches (o : Output) (m : Meaning Nat σ) (s : σ) (trace : List Nat) (s' : σ) : Prop :=
  ∃ place, Steps o m ⟨0, s, []⟩ ⟨place, s', trace⟩

/-- The machine stops with this state, having executed these commands. -/
def Halts (o : Output) (m : Meaning Nat σ) (s : σ) (trace : List Nat) (s' : σ) : Prop :=
  Steps o m ⟨0, s, []⟩ ⟨o.standardCount, s', trace⟩

def Diverges (o : Output) (m : Meaning Nat σ) (s : σ) : Prop :=
  ∀ c, Steps o m ⟨0, s, []⟩ c → ∃ c', step o m c = some c'

variable {o : Output} {m : Meaning Nat σ} {c c' : Config σ}

theorem step_rightUnique (o : Output) (m : Meaning Nat σ) :
    Relator.RightUnique fun c c' : Config σ => step o m c = some c' := by
  intro c c₁ c₂ h₁ h₂
  exact Option.some.inj (h₁.symm.trans h₂)

/-- A step records at most the place it starts from, and the state follows what is recorded. -/
theorem step_replay (h : step o m c = some c') :
    ∃ more, c'.trace = c.trace ++ more ∧ c'.state = m.replay c.state more := by
  unfold step at h
  split at h
  · cases h
  · obtain ⟨command, _, rfl⟩ := Option.map_eq_some_iff.mp h
    dsimp only
    split
    · exact ⟨[], (List.append_nil _).symm, rfl⟩
    · exact ⟨[c.place], rfl, rfl⟩

theorem steps_replay (h : Steps o m c c') :
    ∃ more, c'.trace = c.trace ++ more ∧ c'.state = m.replay c.state more := by
  induction h with
  | refl => exact ⟨[], (List.append_nil _).symm, rfl⟩
  | tail _ hstep ih =>
    obtain ⟨first, htrace, hstate⟩ := ih
    obtain ⟨more, htrace', hstate'⟩ := step_replay hstep
    refine ⟨first ++ more, ?_, ?_⟩
    · rw [htrace', htrace, List.append_assoc]
    · rw [hstate', hstate, Meaning.replay, Meaning.replay, Meaning.replay, List.foldl_append]

theorem eq_of_steps_of_halted (hc : c.place = o.standardCount) (h : Steps o m c c') : c' = c := by
  rcases Relation.ReflTransGen.cases_head h with rfl | ⟨next, hstep, -⟩
  · rfl
  · simp [step, hc] at hstep

/-- The state of a machine is what the executed commands made of the first state. -/
theorem Reaches.state_eq {s s' : σ} {trace : List Nat} (h : Reaches o m s trace s') :
    s' = m.replay s trace := by
  obtain ⟨place, h⟩ := h
  obtain ⟨more, htrace, hstate⟩ := steps_replay h
  obtain rfl : trace = more := by simpa using htrace
  exact hstate

theorem Halts.reaches {s s' : σ} {trace : List Nat} (h : Halts o m s trace s') :
    Reaches o m s trace s' := ⟨_, h⟩

/-- Of two lists of executed commands one goes on with the other. -/
theorem Reaches.comparable {s s₁ s₂ : σ} {t₁ t₂ : List Nat} (h₁ : Reaches o m s t₁ s₁)
    (h₂ : Reaches o m s t₂ s₂) : t₁ <+: t₂ ∨ t₂ <+: t₁ := by
  obtain ⟨_, h₁⟩ := h₁
  obtain ⟨_, h₂⟩ := h₂
  rcases Relation.ReflTransGen.total_of_right_unique (step_rightUnique o m) h₁ h₂ with h | h
  · obtain ⟨more, htrace, -⟩ := steps_replay h
    exact .inl ⟨more, htrace.symm⟩
  · obtain ⟨more, htrace, -⟩ := steps_replay h
    exact .inr ⟨more, htrace.symm⟩

/-- A machine that stops has executed all it ever executes. -/
theorem Halts.extends_reached {s s₁ s₂ : σ} {t₁ t₂ : List Nat} (h₁ : Halts o m s t₁ s₁)
    (h₂ : Reaches o m s t₂ s₂) : t₂ <+: t₁ := by
  obtain ⟨_, h₂⟩ := h₂
  rcases Relation.ReflTransGen.total_of_right_unique (step_rightUnique o m) h₁ h₂ with h | h
  · have heq := eq_of_steps_of_halted rfl h
    exact ⟨[], by rw [List.append_nil]; exact congrArg Config.trace heq⟩
  · obtain ⟨more, htrace, -⟩ := steps_replay h
    exact ⟨more, htrace.symm⟩

theorem Halts.not_diverges {s s' : σ} {trace : List Nat} (h : Halts o m s trace s') :
    ¬Diverges o m s := by
  intro hc
  obtain ⟨c', hstep⟩ := hc _ h
  simp [step] at hstep

theorem diverges_of_reaches {s : σ} (h : ∀ n, ∃ trace s', trace.length = n ∧
      Reaches o m s trace s') :
    Diverges o m s := by
  intro c hc
  obtain ⟨trace, s', hlen, place, hsteps⟩ := h (c.trace.length + 1)
  rcases Relation.ReflTransGen.total_of_right_unique (step_rightUnique o m) hc hsteps with
    hmore | hmore
  · rcases Relation.ReflTransGen.cases_head hmore with rfl | ⟨next, hstep, -⟩
    · simp at hlen
    · exact ⟨next, hstep⟩
  · obtain ⟨more, htrace, -⟩ := steps_replay hmore
    rw [htrace, List.length_append] at hlen
    dsimp only at hlen
    omega

end Machine

end GameScript
