import GameScript.Proofs.Blocks.Check

/-!
# The grammar of scripts

`Derives` is the grammar of the block structure, over the parts of the lines.

* A script is a sequence of single commands, branches, loops and skipped commands.
* A branch is a test with its body and then a chain: further tests and an `else`, each with a body,
  up to an `end`.
* A `skip if` is followed by idle lines and one command that is no shorthand, or by another
  `skip if`.

Idle lines make no difference to the grammar (`IdleEq.derives_iff`). `Sound.derives` reads a sound
tree back into a derivation of its lines.
-/

namespace GameScript

/-- The symbols of the grammar. -/
inductive Nonterminal where
  /-- The lines of a script or of a body. -/
  | script
  /-- What follows the body of a test. -/
  | chain
  /-- What follows a `skip if`. -/
  | skipped
  deriving DecidableEq, Repr

/-- The lines that a symbol stands for. The flag says whether some loop is around them. -/
inductive Derives : Bool → Nonterminal → List Part → Prop
  | done {inLoop : Bool} : Derives inLoop .script []
  | single {inLoop : Bool} {p : Part} {ps : List Part} (hp : p = .idle ∨ p = .plain ∨
      p = .shorthand)
      (hps : Derives inLoop .script ps) : Derives inLoop .script (p :: ps)
  | exit {p : Part} {ps : List Part} (hp : p.isExit = true) (hps : Derives true .script ps) :
      Derives true .script (p :: ps)
  | loop {inLoop : Bool} {body ps : List Part} (hbody : Derives true .script body)
      (hps : Derives inLoop .script ps) : Derives inLoop .script (.loop :: body ++ .close :: ps)
  | branch {inLoop : Bool} {body chain ps : List Part} (hbody : Derives inLoop .script body)
      (hchain : Derives inLoop .chain chain) (hps : Derives inLoop .script ps) :
      Derives inLoop .script (.branch :: body ++ chain ++ ps)
  | skip {inLoop : Bool} {skipped ps : List Part} (hskipped : Derives inLoop .skipped skipped)
      (hps : Derives inLoop .script ps) : Derives inLoop .script (.skip :: skipped ++ ps)
  | close {inLoop : Bool} : Derives inLoop .chain [.close]
  | elseBranch {inLoop : Bool} {body chain : List Part} (hbody : Derives inLoop .script body)
      (hchain : Derives inLoop .chain chain) : Derives inLoop .chain (.elseBranch :: body ++ chain)
  | otherwise {inLoop : Bool} {body : List Part} (hbody : Derives inLoop .script body) :
      Derives inLoop .chain (.otherwise :: body ++ [.close])
  | skippedIdle {inLoop : Bool} {ps : List Part} (hps : Derives inLoop .skipped ps) :
      Derives inLoop .skipped (.idle :: ps)
  | skippedPlain {inLoop : Bool} : Derives inLoop .skipped [.plain]
  | skippedExit {p : Part} (hp : p.isExit = true) : Derives true .skipped [p]
  | skippedSkip {inLoop : Bool} {ps : List Part} (hps : Derives inLoop .skipped ps) :
      Derives inLoop .skipped (.skip :: ps)

/-- Scripts behind each other are a script. -/
theorem Derives.append {inLoop : Bool} {ps qs : List Part} (hps : Derives inLoop .script ps)
    (hqs : Derives inLoop .script qs) : Derives inLoop .script (ps ++ qs) := by
  generalize hs : Nonterminal.script = symbol at hps
  induction hps with
  | done => exact hqs
  | single hp _ ih => exact .single hp (ih hqs hs)
  | exit hp _ ih => exact .exit hp (ih hqs hs)
  | loop hbody _ _ ih => simpa using Derives.loop hbody (ih hqs hs)
  | branch hbody hchain _ _ _ ih => simpa using Derives.branch hbody hchain (ih hqs hs)
  | skip hskipped _ _ ih => simpa using Derives.skip hskipped (ih hqs hs)
  | _ => cases hs

/-! ## Idle lines -/

/-- Lines that differ in idle ones only. -/
def IdleEq (ps qs : List Part) : Prop := ps.filter (· ≠ .idle) = qs.filter (· ≠ .idle)

/-- The lines of a symbol with idle lines around them. -/
def Padded (inLoop : Bool) (symbol : Nonterminal) (ws : List Part) : Prop :=
  ∃ front ps back, ws = front ++ ps ++ back ∧ (∀ p ∈ front, p = .idle) ∧
    (∀ p ∈ back, p = .idle) ∧ Derives inLoop symbol ps

section Idle

variable {inLoop : Bool} {symbol : Nonterminal} {p : Part} {ps qs ws : List Part}

theorem IdleEq.nil (h : IdleEq ws []) : ∀ p ∈ ws, p = .idle := by
  intro p hp
  simpa using List.filter_eq_nil_iff.mp h p hp

theorem IdleEq.cons (h : IdleEq ws (p :: ps)) (hp : p ≠ .idle) :
    ∃ front rest, ws = front ++ p :: rest ∧ (∀ q ∈ front, q = .idle) ∧ IdleEq rest ps := by
  rw [IdleEq, List.filter_cons_of_pos (by simpa using hp)] at h
  obtain ⟨front, rest, hws, hfront, -, hrest⟩ := List.filter_eq_cons_iff.mp h
  exact ⟨front, rest, hws, fun q hq => by simpa using hfront q hq, hrest⟩

theorem IdleEq.append (h : IdleEq ws (ps ++ qs)) :
    ∃ us vs, ws = us ++ vs ∧ IdleEq us ps ∧ IdleEq vs qs := by
  rw [IdleEq, List.filter_append] at h
  exact List.filter_eq_append_iff.mp h

theorem Part.ne_idle_of_isExit (h : p.isExit = true) : p ≠ .idle := by
  rcases Part.eq_of_isExit h with rfl | rfl <;> simp

theorem Derives.of_idle (h : ∀ p ∈ ps, p = .idle) : Derives inLoop .script ps := by
  induction ps with
  | nil => exact .done
  | cons p ps ih => exact .single (.inl (h p (by simp))) (ih fun q hq => h q (by simp [hq]))

theorem Padded.script (h : Padded inLoop .script ws) : Derives inLoop .script ws := by
  obtain ⟨front, ps, back, rfl, hfront, hback, hps⟩ := h
  exact ((Derives.of_idle hfront).append hps).append (.of_idle hback)

/-- What is skipped may begin with idle lines. -/
theorem Padded.skipped (h : Padded inLoop .skipped ws) :
    ∃ ps back, ws = ps ++ back ∧ (∀ p ∈ back, p = .idle) ∧ Derives inLoop .skipped ps := by
  obtain ⟨front, ps, back, rfl, hfront, hback, hps⟩ := h
  refine ⟨front ++ ps, back, rfl, hback, ?_⟩
  induction front with
  | nil => exact hps
  | cons p front ih =>
    obtain rfl := hfront p (by simp)
    exact .skippedIdle (ih fun q hq => hfront q (by simp [hq]))

/-- Idle lines before the `else` or the `end` of a chain belong to the body in front of it, those
behind a chain or behind what is skipped to the script that follows. -/
theorem Derives.padded (h : Derives inLoop symbol ps) (hws : IdleEq ws ps) :
    Padded inLoop symbol ws := by
  induction h generalizing ws with
  | done => exact ⟨ws, [], [], by simp, hws.nil, by simp, .done⟩
  | @single _ p _ hp _ ih =>
    by_cases hidle : p = .idle
    · exact ih (by simpa [IdleEq, hidle] using hws)
    · obtain ⟨front, rest, rfl, hfront, hrest⟩ := hws.cons hidle
      exact ⟨front, _, [], by simp, hfront, by simp, .single hp (ih hrest).script⟩
  | exit hp _ ih =>
    obtain ⟨front, rest, rfl, hfront, hrest⟩ := hws.cons (Part.ne_idle_of_isExit hp)
    exact ⟨front, _, [], by simp, hfront, by simp, .exit hp (ih hrest).script⟩
  | loop _ _ ihbody ihps =>
    obtain ⟨front, rest, rfl, hfront, hrest⟩ := hws.cons (by simp)
    obtain ⟨body, rest, rfl, hbody, hrest⟩ := IdleEq.append hrest
    obtain ⟨gap, rest, rfl, hgap, hps⟩ := hrest.cons (by simp)
    exact ⟨front, _, [], by simp, hfront, by simp,
      .loop ((ihbody hbody).script.append (.of_idle hgap)) (ihps hps).script⟩
  | branch _ _ _ ihbody ihchain ihps =>
    rw [List.append_assoc] at hws
    obtain ⟨front, rest, rfl, hfront, hrest⟩ := hws.cons (by simp)
    obtain ⟨body, rest, rfl, hbody, hrest⟩ := IdleEq.append hrest
    obtain ⟨_, rest, rfl, hchain, hps⟩ := hrest.append
    -- What is idle in front of the chain goes to the body, what is idle behind it to the rest.
    obtain ⟨gap, chain, back, rfl, hgap, hback, hchain⟩ := ihchain hchain
    exact ⟨front, _, [], by simp, hfront, by simp,
      .branch ((ihbody hbody).script.append (.of_idle hgap)) hchain
        ((Derives.of_idle hback).append (ihps hps).script)⟩
  | skip _ _ ihskipped ihps =>
    obtain ⟨front, rest, rfl, hfront, hrest⟩ := hws.cons (by simp)
    obtain ⟨_, rest, rfl, hskipped, hps⟩ := IdleEq.append hrest
    obtain ⟨skipped, back, rfl, hback, hskipped⟩ := (ihskipped hskipped).skipped
    exact ⟨front, _, [], by simp, hfront, by simp,
      .skip hskipped ((Derives.of_idle hback).append (ihps hps).script)⟩
  | close =>
    obtain ⟨front, back, rfl, hfront, hback⟩ := hws.cons (by simp)
    exact ⟨front, _, back, by simp, hfront, hback.nil, .close⟩
  | elseBranch _ _ ihbody ihchain =>
    obtain ⟨front, rest, rfl, hfront, hrest⟩ := hws.cons (by simp)
    obtain ⟨body, _, rfl, hbody, hchain⟩ := IdleEq.append hrest
    obtain ⟨gap, chain, back, rfl, hgap, hback, hchain⟩ := ihchain hchain
    exact ⟨front, _, back, by simp, hfront, hback,
      .elseBranch ((ihbody hbody).script.append (.of_idle hgap)) hchain⟩
  | otherwise _ ihbody =>
    obtain ⟨front, rest, rfl, hfront, hrest⟩ := hws.cons (by simp)
    obtain ⟨body, _, rfl, hbody, hrest⟩ := IdleEq.append hrest
    obtain ⟨gap, back, rfl, hgap, hback⟩ := hrest.cons (by simp)
    exact ⟨front, _, back, by simp, hfront, hback.nil,
      .otherwise ((ihbody hbody).script.append (.of_idle hgap))⟩
  | skippedIdle _ ih => exact ih (by simpa [IdleEq] using hws)
  | skippedPlain =>
    obtain ⟨front, back, rfl, hfront, hback⟩ := hws.cons (by simp)
    exact ⟨front, _, back, by simp, hfront, hback.nil, .skippedPlain⟩
  | skippedExit hp =>
    obtain ⟨front, back, rfl, hfront, hback⟩ := hws.cons (Part.ne_idle_of_isExit hp)
    exact ⟨front, _, back, by simp, hfront, hback.nil, .skippedExit hp⟩
  | skippedSkip _ ih =>
    obtain ⟨front, rest, rfl, hfront, hrest⟩ := hws.cons (by simp)
    obtain ⟨skipped, back, rfl, hback, hskipped⟩ := (ih hrest).skipped
    exact ⟨front, _, back, by simp, hfront, hback, .skippedSkip hskipped⟩

/-- Idle lines make no difference to the grammar. -/
theorem IdleEq.derives_iff (h : IdleEq ps qs) :
    Derives inLoop .script ps ↔ Derives inLoop .script qs :=
  ⟨fun hps => (hps.padded h.symm).script, fun hqs => (hqs.padded h).script⟩

end Idle

/-! ## Reading a tree back -/

/-- The parts of the lines of a tree. The hidden jumps are no lines. -/
def Forest.words (part : NodeId → Part) (f : Forest) : List Part :=
  (f.ids.map part).filter fun p => decide (p ≠ .jump)

/-- What the nesting of lines never does: hang anything below a single command, or hang a hidden
jump below a `skip if`. -/
def Tidy (part : NodeId → Part) : Forest → Prop
  | .nil => True
  | .node id below after =>
    part id ≠ .header ∧ (below = .nil ∨ (part id).opensBlock = true ∨
      (part id = .skip ∧ ∀ j ∈ below.roots, part j ≠ .jump)) ∧ Tidy part below ∧ Tidy part after

namespace Forest

@[simp] theorem words_nil (part : NodeId → Part) : nil.words part = [] := rfl

theorem words_node {part : NodeId → Part} {id : NodeId} (hid : part id ≠ .jump)
    (below after : Forest) :
    (node id below after).words part = part id :: (below.words part ++ after.words part) := by
  simp [words, hid]

theorem words_node_of_jump {part : NodeId → Part} {id : NodeId} (hid : part id = .jump)
    (below after : Forest) :
    (node id below after).words part = below.words part ++ after.words part := by
  simp [words, hid]

theorem isClosed_node_of_ne {part : NodeId → Part} {id : NodeId} (hid : part id ≠ .close)
    (below after : Forest) : (node id below after).isClosed part = after.isClosed part := by
  rw [isClosed_node]
  split
  · next hn => simp [hn, isClosed, hid]
  · rfl

end Forest

/-- Outside of a block no row ends with an `end`. -/
theorem Sound.not_isClosed {part : NodeId → Part} {inLoop isOpen : Bool} {f : Forest}
    (h : Sound part false inLoop isOpen f) : f.isClosed part = false := by
  induction f generalizing isOpen with
  | nil => rfl
  | node id below after _ ih =>
    obtain ⟨hid, _, hafter⟩ := h
    by_cases hclose : part id = .close
    · simp [NodeSound, hclose] at hid
    · rw [Forest.isClosed_node_of_ne hclose]
      exact ih hafter

def Forest.closing (part : NodeId → Part) (f : Forest) : List Part :=
  if f.isClosed part then [.close] else []

theorem Forest.closing_node_of_ne {part : NodeId → Part} {id : NodeId} (hid : part id ≠ .close)
    (below after : Forest) : (node id below after).closing part = after.closing part := by
  simp only [closing, isClosed_node_of_ne hid]

/-- The lines of a row: a script, then maybe an `end`. -/
def RowDerives (part : NodeId → Part) (inLoop : Bool) (f : Forest) : Prop :=
  ∃ ps, f.words part = ps ++ f.closing part ∧ Derives inLoop .script ps

/-- The lines of a row after an open test: what is left of the chain, a script, then maybe an
`end`. -/
def ChainDerives (part : NodeId → Part) (inLoop : Bool) (f : Forest) : Prop :=
  ∃ chain ps, f.words part = chain ++ ps ++ f.closing part ∧ Derives inLoop .chain chain ∧
    Derives inLoop .script ps

/-- The lines below a `skip if`: what it skips, then a script. -/
def SkipDerives (part : NodeId → Part) (inLoop : Bool) (f : Forest) : Prop :=
  ∃ skipped ps, f.words part = skipped ++ ps ∧ Derives inLoop .skipped skipped ∧
    Derives inLoop .script ps

section Rows

variable {part : NodeId → Part} {inBlock inLoop : Bool} {id : NodeId} {below after : Forest}

theorem RowDerives.single (hid : part id = .idle ∨ part id = .plain ∨ part id = .shorthand)
    (hafter : RowDerives part inLoop after) : RowDerives part inLoop (.node id .nil after) := by
  obtain ⟨ps, hwords, hps⟩ := hafter
  have hne : part id ≠ .jump ∧ part id ≠ .close := by rcases hid with h | h | h <;> simp [h]
  refine ⟨part id :: ps, ?_, .single hid hps⟩
  rw [Forest.words_node hne.1, Forest.closing_node_of_ne hne.2, hwords]
  simp

theorem RowDerives.exit (hid : (part id).isExit = true) (hafter : RowDerives part true after) :
    RowDerives part true (.node id .nil after) := by
  obtain ⟨ps, hwords, hps⟩ := hafter
  have hne : part id ≠ .jump ∧ part id ≠ .close := by
    rcases Part.eq_of_isExit hid with h | h <;> simp [h]
  refine ⟨part id :: ps, ?_, .exit hid hps⟩
  rw [Forest.words_node hne.1, Forest.closing_node_of_ne hne.2, hwords]
  simp

/-- The lines of a closed body end with the `end`. -/
theorem RowDerives.of_isClosed (h : RowDerives part inLoop below)
    (hclosed : below.isClosed part = true) :
    ∃ body, below.words part = body ++ [.close] ∧ Derives inLoop .script body := by
  obtain ⟨body, hwords, hbody⟩ := h
  exact ⟨body, by simpa [Forest.closing, hclosed] using hwords, hbody⟩

/-- The body of a test with the rest of its chain. -/
theorem testDerives (hcompleted : Forest.isCompleted part id below after = true)
    (hbelow : RowDerives part inLoop below)
    (hclosed : below.isClosed part = true → RowDerives part inLoop after)
    (hopen : below.isClosed part = false → after.isContinued part = true →
      ChainDerives part inLoop after) :
    ∃ body chain ps, below.words part ++ after.words part =
      body ++ chain ++ ps ++ after.closing part ∧
      Derives inLoop .script body ∧ Derives inLoop .chain chain ∧ Derives inLoop .script ps := by
  by_cases hc : below.isClosed part = true
  · obtain ⟨body, hwords, hbody⟩ := hbelow.of_isClosed hc
    obtain ⟨ps, hafter, hps⟩ := hclosed hc
    exact ⟨body, [.close], ps, by rw [hwords, hafter]; simp, hbody, .close, hps⟩
  · rw [Bool.not_eq_true] at hc
    have hcontinued : after.isContinued part = true := by
      simp only [Forest.isCompleted, hc, Bool.false_or, Bool.and_eq_true] at hcompleted
      exact hcompleted.2
    obtain ⟨body, hwords, hbody⟩ := hbelow
    obtain ⟨chain, ps, hafter, hchain, hps⟩ := hopen hc hcontinued
    refine ⟨body, chain, ps, ?_, hbody, hchain, hps⟩
    rw [hwords, hafter, Forest.closing, hc]
    simp

/-- The row of a `skip if` with what it skips. -/
theorem RowDerives.skip (hid : part id = .skip) (hbelow : SkipDerives part inLoop below)
    (hafter : RowDerives part inLoop after) : RowDerives part inLoop (.node id below after) := by
  obtain ⟨skipped, ps, hwords, hskipped, hps⟩ := hbelow
  obtain ⟨rest, hrest, hderives⟩ := hafter
  refine ⟨.skip :: skipped ++ (ps ++ rest), ?_, .skip hskipped (hps.append hderives)⟩
  rw [Forest.words_node (by simp [hid]), Forest.closing_node_of_ne (by simp [hid]), hid,
    hwords, hrest]
  simp

/-- Nothing but one command is skipped, so that the rows of its siblings are idle. -/
theorem SkipsOne.canBeSkipped (h : SkipsOne ((Forest.node id below after).roots.map part))
    (hlive : (part id).isLive = true) : (part id).canBeSkipped = true := by
  obtain ⟨_, p, hfilter, hp⟩ := h
  simp only [Forest.roots_node, List.map_cons, List.filter_cons, hlive, if_true,
    List.cons.injEq] at hfilter
  rw [hfilter.1]
  exact hp

theorem SkipsOne.of_idle (h : SkipsOne ((Forest.node id below after).roots.map part))
    (hid : part id = .idle) : SkipsOne (after.roots.map part) := by
  obtain ⟨hheader, p, hfilter, hp⟩ := h
  simp only [Forest.roots_node, List.map_cons, hid, List.mem_cons, not_or] at hheader
  simp only [Forest.roots_node, List.map_cons, List.filter_cons, hid, Part.isLive] at hfilter
  exact ⟨hheader.2, p, by simpa using hfilter, hp⟩

/-- The ways to read a sound row back: as a body, as the rest of a chain of tests, and as what a
`skip if` holds. -/
structure ReadsBack (part : NodeId → Part) (f : Forest) : Prop where
  row : ∀ {inBlock inLoop : Bool}, Sound part inBlock inLoop false f → RowDerives part inLoop f
  chain : ∀ {inBlock inLoop : Bool}, Sound part inBlock inLoop true f → f.isContinued part = true →
    ChainDerives part inLoop f
  skipped : ∀ {inLoop : Bool}, Sound part false inLoop false f → SkipsOne (f.roots.map part) →
    (∀ j ∈ f.roots, part j ≠ .jump) → SkipDerives part inLoop f

namespace ReadsBack

theorem leaf_of_tidy (h : Tidy part (.node id below after)) (hopens : (part id).opensBlock = false)
    (hskip : part id ≠ .skip) : below = .nil := by
  rcases h.2.1 with h | h | h
  · exact h
  · rw [hopens] at h
    cases h
  · exact absurd h.1 hskip

/-- A test, opened by `if` or `else if`, with its body and the rest of its chain. -/
theorem test (hbelow : ReadsBack part below) (hafter : ReadsBack part after)
    (htest : (part id).isTest = true) (hcompleted : Forest.isCompleted part id below after = true)
    (hb : Sound part (part id).opensBlock (decide (part id = .loop) || inLoop) false below)
    (ha : Sound part inBlock inLoop ((part id).isTest && !below.isClosed part) after) :
    ∃ body chain ps, below.words part ++ after.words part =
      body ++ chain ++ ps ++ after.closing part ∧
      Derives inLoop .script body ∧ Derives inLoop .chain chain ∧ Derives inLoop .script ps := by
  have hloop : part id ≠ .loop := by
    intro hc
    simp [hc, Part.isTest] at htest
  simp only [hloop, decide_false, Bool.false_or] at hb
  refine testDerives hcompleted (hbelow.row hb) ?_ ?_
  · intro hc
    exact hafter.row (by simpa [htest, hc] using ha)
  · intro hc hcontinued
    exact hafter.chain (by simpa [htest, hc] using ha) hcontinued

/-- Below a `skip if` stands what it skips. -/
theorem skip (hbelow : ReadsBack part below) (htidy : Tidy part (.node id below after))
    (hid : part id = .skip) (hhere : SkipsOne (below.roots.map part))
    (hb : Sound part (part id).opensBlock (decide (part id = .loop) || inLoop) false below) :
    SkipDerives part inLoop below := by
  simp only [hid, Part.opensBlock, reduceCtorEq, decide_false, Bool.false_or] at hb
  refine hbelow.skipped hb hhere ?_
  rcases htidy.2.1 with h | h | h
  · simp [h]
  · simp [hid, Part.opensBlock] at h
  · exact h.2

theorem row_node (hbelow : ReadsBack part below) (hafter : ReadsBack part after)
    (htidy : Tidy part (.node id below after))
    (h : Sound part inBlock inLoop false (.node id below after)) :
    RowDerives part inLoop (.node id below after) := by
  obtain ⟨hhere, hb, ha⟩ := h
  have hrest : (part id).isTest = false → RowDerives part inLoop after := by
    intro htest
    simp only [htest, Bool.false_and] at ha
    exact hafter.row ha
  cases hid : part id with
  | idle | plain | shorthand =>
    obtain rfl := leaf_of_tidy htidy (by rw [hid]; rfl) (by simp [hid])
    exact .single (by simp [hid]) (hrest (by rw [hid]; rfl))
  | header => exact absurd hid htidy.1
  | leave | again =>
    obtain rfl := leaf_of_tidy htidy (by rw [hid]; rfl) (by simp [hid])
    have hloop : inLoop = true := by simpa [NodeSound, hid] using hhere
    subst hloop
    exact .exit (by rw [hid]; rfl) (hrest (by rw [hid]; rfl))
  | branch =>
    have hcompleted : Forest.isCompleted part id below after = true := by
      simpa [NodeSound, hid] using hhere
    obtain ⟨body, chain, ps, hwords, hbody, hchain, hps⟩ :=
      test hbelow hafter (by rw [hid]; rfl) hcompleted hb ha
    refine ⟨.branch :: body ++ chain ++ ps, ?_, .branch hbody hchain hps⟩
    rw [Forest.words_node (by simp [hid]), Forest.closing_node_of_ne (by simp [hid]), hid, hwords]
    simp
  | elseBranch | otherwise => simp [NodeSound, hid] at hhere
  | close =>
    obtain rfl := leaf_of_tidy htidy (by rw [hid]; rfl) (by simp [hid])
    have hlast : after = .nil := by
      simp only [NodeSound, hid] at hhere
      exact hhere.2
    subst hlast
    refine ⟨[], ?_, .done⟩
    simp [Forest.words_node, Forest.closing, Forest.isClosed, hid]
  | loop =>
    have hclosed : below.isClosed part = true := by
      simpa [NodeSound, hid, Forest.isCompleted, Part.isTest] using hhere
    simp only [hid, decide_true, Bool.true_or] at hb
    obtain ⟨body, hwords, hbody⟩ := (hbelow.row hb).of_isClosed hclosed
    obtain ⟨ps, hrest, hps⟩ := hrest (by rw [hid]; rfl)
    refine ⟨.loop :: body ++ .close :: ps, ?_, .loop hbody hps⟩
    rw [Forest.words_node (by simp [hid]), Forest.closing_node_of_ne (by simp [hid]), hid,
      hwords, hrest]
    simp
  | skip =>
    have hone : SkipsOne (below.roots.map part) := by simpa [NodeSound, hid] using hhere
    exact .skip hid (hbelow.skip htidy hid hone hb) (hrest (by rw [hid]; rfl))
  | jump =>
    obtain rfl := leaf_of_tidy htidy (by rw [hid]; rfl) (by simp [hid])
    obtain ⟨ps, hrest, hps⟩ := hrest (by rw [hid]; rfl)
    refine ⟨ps, ?_, hps⟩
    rw [Forest.words_node_of_jump hid, Forest.closing_node_of_ne (by simp [hid]),
      Forest.words_nil, hrest]
    rfl

theorem chain_node (hbelow : ReadsBack part below) (hafter : ReadsBack part after)
    (h : Sound part inBlock inLoop true (.node id below after))
    (hcontinued : (Forest.node id below after).isContinued part = true) :
    ChainDerives part inLoop (.node id below after) := by
  obtain ⟨hhere, hb, ha⟩ := h
  have hchain : (part id).continuesChain = true := hcontinued
  cases hid : part id <;> simp only [hid, Part.continuesChain, Bool.false_eq_true] at hchain
  case elseBranch =>
    have hcompleted : Forest.isCompleted part id below after = true := by
      simp only [NodeSound, hid] at hhere
      exact hhere.2
    obtain ⟨body, chain, ps, hwords, hbody, hchain, hps⟩ :=
      test hbelow hafter (by rw [hid]; rfl) hcompleted hb ha
    refine ⟨.elseBranch :: body ++ chain, ps, ?_, .elseBranch hbody hchain, hps⟩
    rw [Forest.words_node (by simp [hid]), Forest.closing_node_of_ne (by simp [hid]), hid, hwords]
    simp
  case otherwise =>
    have hclosed : below.isClosed part = true := by
      simpa [NodeSound, hid, Forest.isCompleted, Part.isTest] using hhere
    simp only [hid, reduceCtorEq, decide_false, Bool.false_or] at hb
    obtain ⟨body, hwords, hbody⟩ := (hbelow.row hb).of_isClosed hclosed
    have ha' : Sound part inBlock inLoop false after := by simpa [hid, Part.isTest] using ha
    obtain ⟨ps, hrest, hps⟩ := hafter.row ha'
    refine ⟨.otherwise :: body ++ [.close], ps, ?_, .otherwise hbody, hps⟩
    rw [Forest.words_node (by simp [hid]), Forest.closing_node_of_ne (by simp [hid]), hid,
      hwords, hrest]
    simp

theorem skipped_node (hbelow : ReadsBack part below) (hafter : ReadsBack part after)
    (htidy : Tidy part (.node id below after))
    (h : Sound part false inLoop false (.node id below after))
    (hone : SkipsOne ((Forest.node id below after).roots.map part))
    (hjump : ∀ j ∈ (Forest.node id below after).roots, part j ≠ .jump) :
    SkipDerives part inLoop (.node id below after) := by
  obtain ⟨hhere, hb, ha⟩ := h
  have hidJump : part id ≠ .jump := hjump id (by simp)
  -- What stands behind the skipped command is a script: a row outside of a block has no `end`.
  have hrest : (part id).isTest = false → ∃ ps, after.words part = ps ∧
      Derives inLoop .script ps := by
    intro htest
    have ha' : Sound part false inLoop false after := by simpa [htest] using ha
    obtain ⟨ps, hwords, hps⟩ := hafter.row ha'
    exact ⟨ps, by simpa [Forest.closing, ha'.not_isClosed] using hwords, hps⟩
  cases hid : part id with
  | idle =>
    obtain rfl := leaf_of_tidy htidy (by rw [hid]; rfl) (by simp [hid])
    have ha' : Sound part false inLoop false after := by simpa [hid, Part.isTest] using ha
    obtain ⟨skipped, ps, hwords, hskipped, hps⟩ :=
      hafter.skipped ha' (hone.of_idle hid) fun j hj => hjump j (by simp [hj])
    refine ⟨.idle :: skipped, ps, ?_, .skippedIdle hskipped, hps⟩
    rw [Forest.words_node hidJump, hid, hwords]
    simp
  | plain =>
    obtain rfl := leaf_of_tidy htidy (by rw [hid]; rfl) (by simp [hid])
    obtain ⟨ps, hwords, hps⟩ := hrest (by rw [hid]; rfl)
    refine ⟨[.plain], ps, ?_, .skippedPlain, hps⟩
    rw [Forest.words_node hidJump, hid, hwords]
    simp
  | leave | again =>
    obtain rfl := leaf_of_tidy htidy (by rw [hid]; rfl) (by simp [hid])
    have hloop : inLoop = true := by simpa [NodeSound, hid] using hhere
    subst hloop
    obtain ⟨ps, hwords, hps⟩ := hrest (by rw [hid]; rfl)
    refine ⟨[part id], ps, ?_, .skippedExit (by rw [hid]; rfl), hps⟩
    rw [Forest.words_node hidJump, hwords]
    simp
  | skip =>
    have hone' : SkipsOne (below.roots.map part) := by simpa [NodeSound, hid] using hhere
    obtain ⟨skipped, ps, hwords, hskipped, hps⟩ := hbelow.skip htidy hid hone' hb
    obtain ⟨qs, hafterWords, hqs⟩ := hrest (by rw [hid]; rfl)
    refine ⟨.skip :: skipped, ps ++ qs, ?_, .skippedSkip hskipped, hps.append hqs⟩
    rw [Forest.words_node hidJump, hid, hwords, hafterWords]
    simp
  | header => exact absurd hid htidy.1
  | jump => exact absurd hid hidJump
  | close | otherwise => simp [NodeSound, hid] at hhere
  | shorthand | branch | elseBranch | loop =>
    have hskip := hone.canBeSkipped (by rw [hid]; rfl)
    simp [hid, Part.canBeSkipped] at hskip

end ReadsBack

end Rows

theorem Tidy.readsBack {part : NodeId → Part} {f : Forest} (h : Tidy part f) :
    ReadsBack part f := by
  induction f with
  | nil =>
    refine ⟨fun _ => ⟨[], rfl, .done⟩, ?_, ?_⟩
    · intro _ _ _ hcontinued
      simp [Forest.isContinued] at hcontinued
    · rintro _ _ ⟨_, p, hp, _⟩
      simp at hp
  | node id below after ihb iha =>
    have hbelow := ihb h.2.2.1
    have hafter := iha h.2.2.2
    exact ⟨hbelow.row_node hafter h, hbelow.chain_node hafter, hbelow.skipped_node hafter h⟩

/-- The lines of a sound tree are derivable. -/
theorem Sound.derives {part : NodeId → Part} {f : Forest} (h : Sound part false false false f)
    (htidy : Tidy part f) : Derives false .script (f.words part) := by
  obtain ⟨ps, hwords, hps⟩ := htidy.readsBack.row h
  rw [hwords, Forest.closing, h.not_isClosed]
  simpa using hps

end GameScript
