import GameScript.Proofs.Blocks.Part
import GameScript.Proofs.Execution.Machine

/-!
# Structured execution

What a script means by its blocks, without any jumps. `Runs` executes a row of nodes in their order:

* of a chain of `if`, `else if` and `else` only the first branch whose test holds is run,
* a `while` runs its body and tests again until the test fails, `break` leaves it and `continue`
  starts the next round,
* `skip if` omits what is below it if its test holds.

A run can be cut anywhere, so that scripts that never end have runs too. There are enough of them: a
script has a finished run, or cut runs of every length (`progress`).
-/

namespace GameScript

universe u

/-! ## The shape of a tree -/

namespace Tree

def rowOf (t : Tree) : Nat → List NodeId → Forest
  | 0, _ => .nil
  | _ + 1, [] => .nil
  | steps + 1, id :: rest => .node id (t.rowOf steps (t.children id).toList) (t.rowOf steps rest)

def forest (t : Tree) : Forest := t.rowOf t.size (t.children root).toList

theorem rowOf_eq {t : Tree} {parent : NodeId} {f : Forest} (h : t.Hangs parent f) {steps : Nat}
    (hsteps : f.ids.length ≤ steps) : t.rowOf steps f.roots = f := by
  induction f generalizing parent steps with
  | nil => cases steps <;> rfl
  | node id below after ihb iha =>
    obtain ⟨_, hchildren, hbelow, hafter⟩ := h
    simp only [Forest.ids_node, List.length_cons, List.length_append] at hsteps
    obtain ⟨steps, rfl⟩ := Nat.exists_eq_add_one.mpr (Nat.zero_lt_of_lt hsteps)
    rw [Forest.roots_node, rowOf, hchildren, ihb hbelow (by omega), iha hafter (by omega)]

theorem Spans.forest_eq {t : Tree} {f : Forest} (h : t.Spans f) : t.forest = f := by
  rw [forest, h.top]
  refine rowOf_eq h.hangs ?_
  rw [h.size_eq]
  exact Nat.le_succ _

def number (t : Tree) (id : NodeId) : Nat := (t.preorder.filter fun j => (t.node j).isLive).idxOf id

end Tree

/-! ## Runs -/

namespace Part

def isSilent : Part → Bool
  | .idle | .header | .close | .jump => true
  | _ => false

def isPlain : Part → Bool
  | .plain | .shorthand => true
  | _ => false

end Part

/-- Whether a test holds, depending on the answer of its command: `not` turns the answer around. -/
def Conditional.holds : Conditional → Bool → Bool
  | .ifNot, answer | .elseIfNot, answer | .skipIfNot, answer | .whileNot, answer => !answer
  | _, answer => answer

def Forest.afterChain (part : NodeId → Part) : Forest → Forest
  | .nil => .nil
  | .node id below after =>
    if (part id).continuesChain then after.afterChain part else .node id below after

namespace Structured

/-- How a run of a row ends. -/
inductive Outcome where
  /-- Behind the row. -/
  | done
  /-- With a `break`. -/
  | left
  /-- With a `continue`. -/
  | again
  /-- Somewhere on the way. -/
  | cut
  deriving DecidableEq, Repr

variable {σ : Type u}

def Holds (t : Tree) (m : Meaning NodeId σ) (id : NodeId) (s : σ) : Prop :=
  (t.node id).statement.conditional.holds (m.answer id s) = true

/-- Running a row from a state executes some commands and ends in another state. -/
inductive Runs (t : Tree) (m : Meaning NodeId σ) : Forest → σ → List NodeId → Outcome → σ → Prop
  | cut {f : Forest} {s : σ} : Runs t m f s [] .cut s
  | done {s : σ} : Runs t m .nil s [] .done s
  | silent {id : NodeId} {below after : Forest} {s s' : σ} {ids : List NodeId} {out : Outcome}
      (hid : (t.part id).isSilent = true) (hrest : Runs t m after s ids out s') :
      Runs t m (.node id below after) s ids out s'
  | plain {id : NodeId} {below after : Forest} {s s' : σ} {ids : List NodeId} {out : Outcome}
      (hid : (t.part id).isPlain = true) (hrest : Runs t m after (m.act id s) ids out s') :
      Runs t m (.node id below after) s (id :: ids) out s'
  | leave {id : NodeId} {below after : Forest} {s : σ} (hid : t.part id = .leave) :
      Runs t m (.node id below after) s [id] .left (m.act id s)
  | again {id : NodeId} {below after : Forest} {s : σ} (hid : t.part id = .again) :
      Runs t m (.node id below after) s [id] .again (m.act id s)
  /-- The test of an `if` or `else if` holds: its body is run, and the alternatives are passed
  over. -/
  | taken {id : NodeId} {below after : Forest} {s s₁ s₂ : σ} {ids ids' : List NodeId}
      {out : Outcome}
      (hid : (t.part id).isTest = true) (htest : Holds t m id s)
      (hbody : Runs t m below (m.act id s) ids .done s₁)
      (hrest : Runs t m (after.afterChain t.part) s₁ ids' out s₂) :
      Runs t m (.node id below after) s (id :: (ids ++ ids')) out s₂
  | takenOut {id : NodeId} {below after : Forest} {s s₁ : σ} {ids : List NodeId} {out : Outcome}
      (hid : (t.part id).isTest = true) (htest : Holds t m id s)
      (hbody : Runs t m below (m.act id s) ids out s₁) (hout : out ≠ .done) :
      Runs t m (.node id below after) s (id :: ids) out s₁
  /-- The test fails: the alternative that follows is next, if there is one. -/
  | refused {id : NodeId} {below after : Forest} {s s₁ : σ} {ids : List NodeId} {out : Outcome}
      (hid : (t.part id).isTest = true) (htest : ¬Holds t m id s)
      (hrest : Runs t m after (m.act id s) ids out s₁) :
      Runs t m (.node id below after) s (id :: ids) out s₁
  /-- An `else` that is reached runs its body. -/
  | otherwise {id : NodeId} {below after : Forest} {s s₁ s₂ : σ} {ids ids' : List NodeId}
      {out : Outcome}
      (hid : t.part id = .otherwise) (hbody : Runs t m below s ids .done s₁)
      (hrest : Runs t m after s₁ ids' out s₂) : Runs t m (.node id below after) s
      (ids ++ ids') out s₂
  | otherwiseOut {id : NodeId} {below after : Forest} {s s₁ : σ} {ids : List NodeId} {out : Outcome}
      (hid : t.part id = .otherwise) (hbody : Runs t m below s ids out s₁) (hout : out ≠ .done) :
      Runs t m (.node id below after) s ids out s₁
  /-- A round of a `while` is followed by its next test. -/
  | round {id : NodeId} {below after : Forest} {s s₁ s₂ : σ} {ids ids' : List NodeId}
      {out out' : Outcome}
      (hid : t.part id = .loop) (htest : Holds t m id s)
      (hbody : Runs t m below (m.act id s) ids out s₁)
      (hout : out = .done ∨ out = .again) (hrest : Runs t m (.node id below after) s₁ ids'
        out' s₂) :
      Runs t m (.node id below after) s (id :: (ids ++ ids')) out' s₂
  | broken {id : NodeId} {below after : Forest} {s s₁ s₂ : σ} {ids ids' : List NodeId}
      {out : Outcome}
      (hid : t.part id = .loop) (htest : Holds t m id s)
      (hbody : Runs t m below (m.act id s) ids .left s₁)
      (hrest : Runs t m after s₁ ids' out s₂) : Runs t m (.node id below after) s
      (id :: (ids ++ ids')) out s₂
  | roundCut {id : NodeId} {below after : Forest} {s s₁ : σ} {ids : List NodeId}
      (hid : t.part id = .loop) (htest : Holds t m id s)
      (hbody : Runs t m below (m.act id s) ids .cut s₁) :
      Runs t m (.node id below after) s (id :: ids) .cut s₁
  | ended {id : NodeId} {below after : Forest} {s s₁ : σ} {ids : List NodeId} {out : Outcome}
      (hid : t.part id = .loop) (htest : ¬Holds t m id s)
      (hrest : Runs t m after (m.act id s) ids out s₁) :
      Runs t m (.node id below after) s (id :: ids) out s₁
  /-- The test of a `skip if` holds: what is below it is omitted. -/
  | omitted {id : NodeId} {below after : Forest} {s s₁ : σ} {ids : List NodeId} {out : Outcome}
      (hid : t.part id = .skip) (htest : Holds t m id s)
      (hrest : Runs t m after (m.act id s) ids out s₁) :
      Runs t m (.node id below after) s (id :: ids) out s₁
  | performed {id : NodeId} {below after : Forest} {s s₁ s₂ : σ} {ids ids' : List NodeId}
      {out : Outcome}
      (hid : t.part id = .skip) (htest : ¬Holds t m id s)
      (hbody : Runs t m below (m.act id s) ids .done s₁) (hrest : Runs t m after s₁ ids' out s₂) :
      Runs t m (.node id below after) s (id :: (ids ++ ids')) out s₂
  | performedOut {id : NodeId} {below after : Forest} {s s₁ : σ} {ids : List NodeId} {out : Outcome}
      (hid : t.part id = .skip) (htest : ¬Holds t m id s)
      (hbody : Runs t m below (m.act id s) ids out s₁) (hout : out ≠ .done) :
      Runs t m (.node id below after) s (id :: ids) out s₁

def Diverges (t : Tree) (m : Meaning NodeId σ) (s : σ) : Prop :=
  ∀ n, ∃ ids s', ids.length = n ∧ Runs t m t.forest s ids .cut s'

variable {t : Tree} {m : Meaning NodeId σ} {f g : Forest} {s s' : σ} {ids : List NodeId}
  {out : Outcome}

/-- The state after a run is what the executed commands made of the first state. -/
theorem Runs.state_eq (h : Runs t m f s ids out s') : s' = m.replay s ids := by
  induction h with
  | cut | done => rfl
  | leave _ | again _ => rfl
  | silent _ _ ih | plain _ _ ih => exact ih
  | refused _ _ _ ih | ended _ _ _ ih | omitted _ _ _ ih => exact ih
  | takenOut _ _ _ _ ih | performedOut _ _ _ _ ih | roundCut _ _ _ ih => exact ih
  | otherwiseOut _ _ _ ih => exact ih
  | otherwise _ _ _ ihb ihr =>
    rw [ihr, ihb]
    exact (List.foldl_append ..).symm
  | taken _ _ _ _ ihb ihr | broken _ _ _ _ ihb ihr | performed _ _ _ _ ihb ihr =>
    rw [ihr, ihb]
    exact (List.foldl_append ..).symm
  | round _ _ _ _ _ ihb ihr =>
    rw [ihr, ihb]
    exact (List.foldl_append ..).symm

/-! ## There are enough runs -/

/-- The row has a run that is cut after `n` commands, or one that ends before. -/
def Progress (t : Tree) (m : Meaning NodeId σ) (n : Nat) (f : Forest) (s : σ) : Prop :=
  (∃ ids s', ids.length = n ∧ Runs t m f s ids .cut s') ∨
    ∃ ids out s', out ≠ .cut ∧ ids.length ≤ n ∧ Runs t m f s ids out s'

namespace Progress

theorem extend {n k : Nat} {s₀ : σ} (first : List NodeId) (h : Progress t m k f s)
    (hn : first.length + k = n) (hrun : ∀ ids out s', Runs t m f s ids out s' →
      Runs t m g s₀ (first ++ ids) out s') :
    Progress t m n g s₀ := by
  rcases h with ⟨ids, s', hlen, hcut⟩ | ⟨ids, out, s', hout, hlen, hruns⟩
  · exact .inl ⟨first ++ ids, s', by rw [List.length_append, hlen, hn], hrun _ _ _ hcut⟩
  · refine .inr ⟨first ++ ids, out, s', hout, ?_, hrun _ _ _ hruns⟩
    rw [List.length_append, ← hn]
    exact Nat.add_le_add_left hlen _

/-- A body that is run after some commands. Behind a run of the body `j` commands are left. -/
theorem body {n k : Nat} {s₀ : σ} (first : List NodeId) (h : Progress t m k f s)
    (hn : first.length + k = n) (hcut : ∀ ids s', Runs t m f s ids .cut s' →
      Runs t m g s₀ (first ++ ids) .cut s')
    (hrest : ∀ ids out s' j, out ≠ .cut → Runs t m f s ids out s' → (first ++ ids).length + j = n →
      Progress t m n g s₀) : Progress t m n g s₀ := by
  rcases h with ⟨ids, s', hlen, hruns⟩ | ⟨ids, out, s', hout, hlen, hruns⟩
  · exact .inl ⟨first ++ ids, s', by rw [List.length_append, hlen, hn], hcut _ _ hruns⟩
  · refine hrest ids out s' (k - ids.length) hout hruns ?_
    rw [List.length_append, Nat.add_assoc, Nat.add_sub_cancel' hlen, hn]

theorem ended {n j : Nat} (hrun : Runs t m f s ids out s') (hout : out ≠ .cut)
    (hn : ids.length + j = n) :
    Progress t m n f s := .inr ⟨ids, out, s', hout, hn ▸ Nat.le_add_right _ _, hrun⟩

end Progress

section Step

variable {n : Nat} {id : NodeId} {below after : Forest}

theorem progress_test (ih : ∀ k ≤ n, ∀ f s, Progress t m k f s) (hid : (t.part id).isTest = true)
    (s : σ) :
    Progress t m (n + 1) (.node id below after) s := by
  by_cases htest : Holds t m id s
  · refine (ih n (Nat.le_refl n) below (m.act id s)).body [id] (Nat.add_comm 1 n)
      (fun _ _ hcut => .takenOut hid htest hcut nofun) fun ids out s' j hout hbody hj => ?_
    by_cases hdone : out = .done
    · subst hdone
      have hle : j ≤ n := by simp only [List.length_append, List.length_singleton] at hj; omega
      exact (ih j hle _ s').extend (id :: ids) hj fun _ _ _ hrest => .taken hid htest hbody hrest
    · exact .ended (.takenOut hid htest hbody hdone) hout hj
  · exact (ih n (Nat.le_refl n) after _).extend [id] (Nat.add_comm 1 n) fun _ _ _ hrest =>
      .refused hid htest hrest

theorem progress_loop (ih : ∀ k ≤ n, ∀ f s, Progress t m k f s) (hid : t.part id = .loop) (s : σ) :
    Progress t m (n + 1) (.node id below after) s := by
  by_cases htest : Holds t m id s
  · refine (ih n (Nat.le_refl n) below (m.act id s)).body [id] (Nat.add_comm 1 n)
      (fun _ _ hcut => .roundCut hid htest hcut) fun ids out s' j hout hbody hj => ?_
    have hle : j ≤ n := by simp only [List.length_append, List.length_singleton] at hj; omega
    cases out with
    | done =>
      exact (ih j hle _ s').extend (id :: ids) hj fun _ _ _ hrest =>
        .round hid htest hbody (.inl rfl) hrest
    | again =>
      exact (ih j hle _ s').extend (id :: ids) hj fun _ _ _ hrest =>
        .round hid htest hbody (.inr rfl) hrest
    | left =>
      exact (ih j hle _ s').extend (id :: ids) hj fun _ _ _ hrest => .broken hid htest hbody hrest
    | cut => exact absurd rfl hout
  · exact (ih n (Nat.le_refl n) after _).extend [id] (Nat.add_comm 1 n) fun _ _ _ hrest =>
      .ended hid htest hrest

theorem progress_skip (ih : ∀ k ≤ n, ∀ f s, Progress t m k f s) (hid : t.part id = .skip) (s : σ) :
    Progress t m (n + 1) (.node id below after) s := by
  by_cases htest : Holds t m id s
  · exact (ih n (Nat.le_refl n) after _).extend [id] (Nat.add_comm 1 n) fun _ _ _ hrest =>
      .omitted hid htest hrest
  · refine (ih n (Nat.le_refl n) below (m.act id s)).body [id] (Nat.add_comm 1 n)
      (fun _ _ hcut => .performedOut hid htest hcut nofun) fun ids out s' j hout hbody hj => ?_
    by_cases hdone : out = .done
    · subst hdone
      have hle : j ≤ n := by simp only [List.length_append, List.length_singleton] at hj; omega
      exact (ih j hle _ s').extend (id :: ids) hj fun _ _ _ hrest =>
        .performed hid htest hbody hrest
    · exact .ended (.performedOut hid htest hbody hdone) hout hj

/-- An `else` executes nothing itself, so that its body may need all of the commands. -/
theorem progress_otherwise (hbelow : ∀ s, Progress t m n below s)
    (hafter : ∀ k ≤ n, ∀ s, Progress t m k after s) (hid : t.part id = .otherwise) (s : σ) :
    Progress t m n (.node id below after) s := by
  refine (hbelow s).body [] (Nat.zero_add n) (fun _ _ hcut => .otherwiseOut hid hcut nofun)
    fun ids out s' j hout hbody hj => ?_
  by_cases hdone : out = .done
  · subst hdone
    exact (hafter j (hj ▸ Nat.le_add_left _ _) s').extend ids hj fun _ _ _ hrest =>
      .otherwise hid hbody hrest
  · exact .ended (.otherwiseOut hid hbody hdone) hout hj

end Step

/-- A row has a finished run, or cut runs of every length. -/
theorem progress (n : Nat) (f : Forest) (s : σ) : Progress t m n f s := by
  induction n using Nat.strongRecOn generalizing f s with
  | ind n ih =>
    cases n with
    | zero => exact .inl ⟨[], s, rfl, .cut⟩
    | succ n =>
      -- Executed nodes leave fewer commands to what follows; the others are why the row shrinks.
      have hfewer : ∀ k ≤ n, ∀ f s, Progress t m k f s := fun k hk => ih k (Nat.lt_succ_of_le hk)
      induction f generalizing s with
      | nil => exact .inr ⟨[], .done, s, nofun, Nat.zero_le _, .done⟩
      | node id below after ihb iha =>
        have hafter : ∀ k ≤ n + 1, ∀ s, Progress t m k after s := by
          intro k hk s
          rcases Nat.lt_or_eq_of_le hk with hlt | rfl
          · exact ih k hlt after s
          · exact iha s
        cases hp : t.part id with
        | idle | header | close | jump =>
          exact (iha s).extend [] (Nat.zero_add _) fun _ _ _ hrest =>
            .silent (by rw [hp]; rfl) hrest
        | plain | shorthand =>
          exact (hfewer n (Nat.le_refl n) after _).extend [id] (Nat.add_comm 1 n)
            fun _ _ _ hrest => .plain (by rw [hp]; rfl) hrest
        | leave => exact .ended (.leave hp) nofun (Nat.add_comm 1 n)
        | again => exact .ended (.again hp) nofun (Nat.add_comm 1 n)
        | branch | elseBranch => exact progress_test hfewer (by rw [hp]; rfl) s
        | otherwise => exact progress_otherwise ihb hafter hp s
        | loop => exact progress_loop hfewer hp s
        | skip => exact progress_skip hfewer hp s

end Structured

end GameScript
