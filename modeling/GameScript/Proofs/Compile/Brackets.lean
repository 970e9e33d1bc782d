import GameScript.Proofs.Compile.Acceptance

/-!
# Jumps and brackets

The commands of a script, read from left to right, are bracketed: `if` and `while` open a block,
`else` and `else if` divide it, `end` closes it. `AllMatched` says where each jump leads in these
terms alone, and `jumps_match_brackets` that the jumps of every compiled script do so.
-/

namespace GameScript

/-! ## Reading brackets -/

namespace Command

def opens (c : Command) : Bool := c.role == .branch || c.role == .loop

def divides (c : Command) : Bool := c.role.continuesChain

def closes (c : Command) : Bool := c.role == .close

end Command

namespace Brackets

/-- The index of the first indexed command, or the number of all of them if none is left. -/
def nextIndex (count : Nat) (cs : List Command) : Nat := (cs.findSome? Command.number?).getD count

/-- The `end` of the block around a list of commands, with what follows it. A command of the same
level that `stops` picks is taken in its place if it comes first. -/
def scan (stops : Command → Bool) : Nat → List Command → Option (Command × List Command)
  | _, [] => none
  | depth, c :: cs =>
    if c.opens then scan stops (depth + 1) cs
    else if c.closes then
      match depth with
      | 0 => some (c, cs)
      | depth + 1 => scan stops depth cs
    else if depth = 0 ∧ stops c = true then some (c, cs)
    else scan stops depth cs

/-- The next `else`, `else if` or `end` of the same level, with what follows it. -/
def boundary? (cs : List Command) : Option (Command × List Command) := scan Command.divides 0 cs

/-- The `end` of the same level, with what follows it. -/
def closing? (cs : List Command) : Option (Command × List Command) := scan (fun _ => false) 0 cs

/-- What follows the command that a `skip if` skips. A skipped `skip if` extends over what it skips
in turn. -/
def afterSkipped : List Command → List Command
  | [] => []
  | c :: cs => if c.index.isNone || c.role == .skip then afterSkipped cs else cs

/-- The open blocks, innermost first, each with what follows the command that opened it. -/
abbrev Blocks := List (Command × List Command)

def opened (c : Command) (rest : List Command) (blocks : Blocks) : Blocks :=
  if c.opens then (c, rest) :: blocks else if c.closes then blocks.tail else blocks

def enclosingLoop? (blocks : Blocks) : Option (Command × List Command) :=
  blocks.find? fun b => b.1.role == .loop

/-- A test leads to the `else if` that comes next at its level, or else after the `else` or `end`
there. -/
def TestLeads (count : Nat) (c : Command) (rest : List Command) : Prop :=
  ∃ q after, boundary? rest = some (q, after) ∧
    if q.role = .elseBranch then ∃ i, q.number? = some i ∧ c.target? = some i
    else c.target? = some (nextIndex count after)

def Divided (blocks : Blocks) : Prop := ∃ b, blocks.head? = some b ∧ b.1.role = .branch

/-- A hidden jump stands before the `end` of a loop and leads to the loop, or it stands before an
`else` or `else if` and leads after the `end` of the chain. -/
def HiddenLeads (count : Nat) (blocks : Blocks) (c : Command) (rest : List Command) : Prop :=
  ∃ next after, rest = next :: after ∧
    ((next.closes = true ∧ ∃ b i, blocks.head? = some b ∧ b.1.role = .loop ∧ b.1.number? = some i ∧
        c.target? = some i) ∨
      (next.divides = true ∧ ∃ last chain, closing? rest = some (last, chain) ∧
        c.target? = some (nextIndex count chain)))

/-- Where a command leads, told by the brackets around it: `blocks` are open before it and `rest`
follows. -/
def Matched (count : Nat) (blocks : Blocks) (c : Command) (rest : List Command) : Prop :=
  match c.role with
  | .branch => TestLeads count c rest
  | .elseBranch => TestLeads count c rest ∧ Divided blocks
  | .otherwise => Divided blocks
  | .loop =>
    ∃ last after, closing? rest = some (last, after) ∧ c.target? = some (nextIndex count after)
  | .leave => ∃ head inner last after, enclosingLoop? blocks = some (head, inner) ∧
      closing? inner = some (last, after) ∧ c.target? = some (nextIndex count after)
  | .again => ∃ head inner i, enclosingLoop? blocks = some (head, inner) ∧ head.number? = some i ∧
      c.target? = some i
  | .skip => c.target? = some (nextIndex count (afterSkipped rest))
  | .close => blocks ≠ []
  | .plain => c.origin = .hiddenJump → HiddenLeads count blocks c rest
  | .idle => True

/-- All commands of a list lead where the brackets tell, and all blocks are closed at its end. -/
def AllMatched (count : Nat) : Blocks → List Command → Prop
  | blocks, [] => blocks = []
  | blocks, c :: rest => Matched count blocks c rest ∧ AllMatched count (opened c rest blocks) rest

/-! ## Indices -/

def Counts (count : Nat) : Nat → List Command → Prop
  | n, [] => n = count
  | n, c :: cs =>
    match c.number? with
    | some i => i = n ∧ Counts count (n + 1) cs
    | none => Counts count n cs

theorem Counts.nextIndex_eq {count n : Nat} {cs : List Command} (h : Counts count n cs) :
    nextIndex count cs = n := by
  induction cs with
  | nil => exact h.symm
  | cons c cs ih =>
    unfold Counts at h
    unfold nextIndex at ih ⊢
    cases hc : c.number? with
    | none =>
      rw [hc] at h
      rw [List.findSome?_cons, hc]
      exact ih h
    | some i =>
      rw [hc] at h
      rw [List.findSome?_cons, hc, h.1]
      rfl

structure Shows (part : NodeId → Part) (cmd : NodeId → Command) (id : NodeId) : Prop where
  role : part id ≠ .header → (cmd id).role = (part id).role
  hidden : (cmd id).origin = .hiddenJump ↔ part id = .jump
  live : (cmd id).number?.isSome = (part id).isLive

def word (part : NodeId → Part) (cmd : NodeId → Command) : Forest → List Command
  | .nil => []
  | .node id below after =>
    (if part id = .header then [] else [cmd id]) ++ (word part cmd below ++ word part cmd after)

section Rows

variable {part : NodeId → Part} {cmd : NodeId → Command} {f below after : Forest} {id : NodeId}
  {tail : List Command}

theorem word_eq (part : NodeId → Part) (cmd : NodeId → Command) (f : Forest) :
    word part cmd f = (f.ids.filter fun id => part id != .header).map cmd := by
  induction f with
  | nil => rfl
  | node id below after ihb iha =>
    rw [word, ihb, iha, Forest.ids_node, List.filter_cons, List.filter_append]
    by_cases hid : part id = .header
    · simp [hid]
    · simp [hid]

theorem word_node (hid : part id ≠ .header) (below after : Forest) (tail : List Command) :
    word part cmd (.node id below after) ++ tail =
      cmd id :: (word part cmd below ++ (word part cmd after ++ tail)) := by
  simp [word, hid]

theorem word_node_of_header (hid : part id = .header) (below after : Forest) (tail : List Command) :
    word part cmd (.node id below after) ++ tail =
      word part cmd below ++ (word part cmd after ++ tail) := by
  simp [word, hid]

variable {count n : Nat}

theorem Counts.cons (hid : Shows part cmd id) (h : Counts count n (cmd id :: tail)) :
    Counts count (n + (part id).isLive.toNat) tail := by
  have hlive := hid.live
  unfold Counts at h
  cases hc : (cmd id).number? with
  | none =>
    rw [hc] at h hlive
    rw [← hlive]
    exact h
  | some i =>
    rw [hc] at h hlive
    rw [← hlive]
    exact h.2

/-- An executed command has the number that the list starts with. -/
theorem Counts.number?_eq (hid : Shows part cmd id) (hlive : (part id).isLive = true)
    (h : Counts count n (cmd id :: tail)) : (cmd id).number? = some n := by
  obtain ⟨i, hi⟩ := Option.isSome_iff_exists.mp (hid.live.trans hlive)
  unfold Counts at h
  rw [hi] at h
  rw [hi, h.1]

/-- What is below the first node of a row is numbered from the number after the node. -/
theorem Counts.inner (hid : Shows part cmd id)
    (h : Counts count n (word part cmd (.node id below after) ++ tail)) :
    Counts count (n + (part id).isLive.toNat)
    (word part cmd below ++ (word part cmd after ++ tail)) := by
  by_cases hheader : part id = .header
  · rw [word_node_of_header hheader] at h
    rw [hheader]
    exact h
  · rw [word_node hheader] at h
    exact h.cons hid

theorem Counts.word (hf : ∀ id ∈ f.ids, Shows part cmd id)
    (h : Counts count n (word part cmd f ++ tail)) : Counts count (n + f.count part) tail := by
  induction f generalizing n tail with
  | nil => exact h
  | node id below after ihb iha =>
    obtain ⟨hid, hbelow, hafter⟩ := Forest.forall_ids_node.mp hf
    have hrest := iha hafter (ihb hbelow (h.inner hid))
    rw [Forest.count]
    simpa [Nat.add_assoc] using hrest

theorem Counts.rest (hf : ∀ j ∈ (Forest.node id below after).ids, Shows part cmd j)
    (h : Counts count n (Brackets.word part cmd (.node id below after) ++ tail)) :
    Counts count (n + (part id).isLive.toNat + below.count part)
    (Brackets.word part cmd after ++ tail) := by
  obtain ⟨hid, hbelow, -⟩ := Forest.forall_ids_node.mp hf
  exact (h.inner hid).word hbelow

theorem Counts.of_index {ids : List NodeId} (hcount : count = ids.countP fun j => (part j).isLive)
    (hindex : ∀ a id b, ids = a ++ id :: b → (cmd id).number? =
      if (part id).isLive then some (a.countP fun j => (part j).isLive) else none) :
    Counts count 0 ((ids.filter fun id => part id != .header).map cmd) := by
  have hrun : ∀ (rest done : List NodeId), ids = done ++ rest →
      Counts count (done.countP fun j => (part j).isLive)
        ((rest.filter fun id => part id != .header).map cmd) := by
    intro rest
    induction rest with
    | nil =>
      intro done hids
      rw [List.append_nil] at hids
      rw [hcount, hids]
      rfl
    | cons id rest ih =>
      intro done hids
      have hnumber := hindex done id rest hids
      have hrest := ih (done ++ [id]) (by simp [hids])
      rw [List.countP_append, List.countP_singleton] at hrest
      by_cases hid : part id = .header
      · simpa [hid, Part.isLive] using hrest
      · have hmap : ((id :: rest).filter fun id => part id != .header).map cmd =
            cmd id :: (rest.filter fun id => part id != .header).map cmd := by simp [hid]
        rw [hmap, Counts, hnumber]
        cases hlive : (part id).isLive with
        | true =>
          rw [hlive] at hrest
          exact ⟨rfl, hrest⟩
        | false =>
          rw [hlive] at hrest
          exact hrest
  exact hrun ids [] rfl

/-! ## Passing rows -/

variable {stops : Command → Bool} {c : Command} {stop : Stop} {inChain inLoop : Bool}
  {exit next : Nat} {blocks stack : Blocks} {loop : Option (Nat × Nat)} {rest : List Command}

theorem scan_opens (h : c.opens = true) (depth : Nat) (cs : List Command) :
    scan stops depth (c :: cs) = scan stops (depth + 1) cs := by
  simp [scan, h]

theorem scan_other {depth : Nat} (hopens : c.opens = false) (hcloses : c.closes = false)
    (hstops : depth = 0 → stops c = false) (cs : List Command) :
    scan stops depth (c :: cs) = scan stops depth cs := by
  have hstop : ¬(depth = 0 ∧ stops c = true) := by
    rintro ⟨hd, hc⟩
    rw [hstops hd] at hc
    cases hc
  simp [scan, hopens, hcloses, hstop]

/-- What a scan finds behind a row that ends like this; `last` is the `end` of the row. -/
def resume (stops : Command → Bool) (last : Command) :
    Stop → Nat → List Command → Option (Command × List Command)
  | .close, 0, tail | .loop, 0, tail => some (last, tail)
  | .close, depth + 1, tail | .loop, depth + 1, tail => scan stops depth tail
  | .script, depth, tail | .jump, depth, tail => scan stops depth tail

theorem scan_closes (hopens : c.opens = false) (h : c.closes = true)
    (hstop : stop = .close ∨ stop = .loop) (depth : Nat) (cs : List Command) :
    scan stops depth (c :: cs) = resume stops c stop depth cs := by
  cases depth with
  | zero => rcases hstop with rfl | rfl <;> simp [scan, hopens, h, resume]
  | succ depth => rcases hstop with rfl | rfl <;> simp [scan, hopens, h, resume]

/-- The command of a node that neither opens nor closes a block is no bracket. -/
theorem Shows.flat (hid : Shows part cmd id) (hheader : part id ≠ .header)
    (hopens : (part id).opensBlock = false) (hclose : part id ≠ .close) :
    (cmd id).opens = false ∧ (cmd id).closes = false ∧ (cmd id).divides = false := by
  rw [Command.opens, Command.closes, Command.divides, hid.role hheader]
  cases hp : part id <;> simp_all [Part.opensBlock, Part.role, Role.continuesChain]

theorem scan_flat (hstops : ∀ c, stops c = true → c.divides = true) (hid : Shows part cmd id)
    (hopens : (part id).opensBlock = false) (hclose : part id ≠ .close) (depth : Nat)
    (below after : Forest) (tail : List Command) :
    scan stops depth (word part cmd (.node id below after) ++ tail) =
      scan stops depth (word part cmd below ++ (word part cmd after ++ tail)) := by
  by_cases hheader : part id = .header
  · rw [word_node_of_header hheader]
  · obtain ⟨ho, hc, hd⟩ := hid.flat hheader hopens hclose
    rw [word_node hheader]
    refine scan_other ho hc (fun _ => ?_) _
    rw [Bool.eq_false_iff]
    intro hstop
    rw [hstops _ hstop] at hd
    cases hd

theorem scan_skipped (hstops : ∀ c, stops c = true → c.divides = true)
    (hf : Skipped part inLoop f) (hshows : ∀ id ∈ f.ids, Shows part cmd id) (depth : Nat)
    (tail : List Command) :
    scan stops depth (word part cmd f ++ tail) = scan stops depth tail := by
  induction hf generalizing tail with
  | idle hid _ ih =>
    obtain ⟨hnode, -, hafter⟩ := Forest.forall_ids_node.mp hshows
    rw [scan_flat hstops hnode (by rw [hid]; rfl) (by simp [hid])]
    exact ih hafter tail
  | plain hid => exact scan_flat hstops (hshows _ (by simp)) (by rw [hid]; rfl) (by simp [hid]) ..
  | exit hid _ =>
    have hflat := Part.flat_of_isExit hid
    exact scan_flat hstops (hshows _ (by simp)) hflat.1 hflat.2 ..
  | skip hid _ ih =>
    obtain ⟨hnode, hbelow, -⟩ := Forest.forall_ids_node.mp hshows
    rw [scan_flat hstops hnode (by rw [hid]; rfl) (by simp [hid])]
    exact ih hbelow tail

theorem Shows.alternative (hid : Shows part cmd id) (hpart : (part id).continuesChain = true) :
    part id ≠ .header ∧ (cmd id).opens = false ∧ (cmd id).closes = false ∧
    (cmd id).divides = true := by
  have hheader : part id ≠ .header := by
    rintro hp
    simp [hp, Part.continuesChain] at hpart
  rw [Command.opens, Command.closes, Command.divides, hid.role hheader]
  refine ⟨hheader, ?_⟩
  cases hp : part id <;> simp_all [Part.continuesChain, Part.role, Role.continuesChain]

/-- Behind a command of a chain a scan is inside of the block that the chain opened. -/
theorem scan_chain (hid : Shows part cmd id) (hplace : (part id).takesPlace inChain = true)
    (depth : Nat) (cs : List Command) :
    scan stops (depth + inChain.toNat) (cmd id :: cs) = scan stops (depth + 1) cs := by
  cases inChain with
  | false =>
    have hpart : part id = .branch := by simpa [Part.takesPlace] using hplace
    have hrole := hid.role (by simp [hpart])
    exact scan_opens (by rw [Command.opens, hrole, hpart]; rfl) _ _
  | true =>
    obtain ⟨_, hopens, hcloses, _⟩ := hid.alternative hplace
    exact scan_other hopens hcloses (fun hc => by simp at hc) _

theorem Shows.closes (hid : Shows part cmd id) (hpart : part id = .close) :
    (cmd id).closes = true := by
  rw [Command.closes, hid.role (by simp [hpart]), hpart]
  rfl

theorem scan_end (hid : Shows part cmd id) (hpart : part id = .close)
    (hstop : stop = .close ∨ stop = .loop) (depth : Nat) (cs : List Command) :
    scan stops depth (cmd id :: cs) = resume stops (cmd id) stop depth cs := by
  refine scan_closes ?_ (hid.closes hpart) hstop depth cs
  rw [Command.opens, hid.role (by simp [hpart]), hpart]
  rfl

/-- A scan passes well-built rows as a whole: it goes on behind the row, one level up if the row
closes a block. A row that goes on with an alternative closes the block that the test opened. -/
theorem scan_block (hstops : ∀ c, stops c = true → c.divides = true)
    (hf : Block part inLoop inChain stop f) (hshows : ∀ id ∈ f.ids, Shows part cmd id) :
    ∃ last, (stop = .close ∨ stop = .loop → last.closes = true) ∧ ∀ depth tail,
      scan stops (depth + inChain.toNat) (word part cmd f ++ tail) =
        resume stops last stop depth tail := by
  induction hf with
  | script => exact ⟨cmd Tree.root, fun h => by simp at h, fun depth tail => rfl⟩
  | @close _ id hid =>
    refine ⟨cmd id, fun _ => (hshows id (by simp)).closes hid, fun depth tail => ?_⟩
    rw [word_node (by simp [hid])]
    exact scan_end (hshows id (by simp)) hid (.inl rfl) depth tail
  | @jump _ id hid =>
    refine ⟨cmd id, fun h => by simp at h, fun depth tail => ?_⟩
    exact scan_flat hstops (hshows id (by simp)) (by simp [hid, Part.opensBlock])
      (by simp [hid]) _ _ _ _
  | @round _ id last hid hlast =>
    refine ⟨cmd last, fun _ => (hshows last (by simp)).closes hlast, fun depth tail => ?_⟩
    rw [scan_flat hstops (hshows id (by simp)) (by simp [hid, Part.opensBlock]) (by simp [hid]),
      word, List.nil_append, word_node (by simp [hlast])]
    exact scan_end (hshows last (by simp)) hlast (.inr rfl) depth tail
  | single hid _ ih =>
    obtain ⟨hnode, -, hafter⟩ := Forest.forall_ids_node.mp hshows
    obtain ⟨last, hlast, hscan⟩ := ih hafter
    have hflat := Part.flat_of_isSingle hid
    exact ⟨last, hlast, fun depth tail => (scan_flat hstops hnode hflat.1 hflat.2 ..).trans
      (hscan depth tail)⟩
  | exit hid _ ih =>
    obtain ⟨hnode, -, hafter⟩ := Forest.forall_ids_node.mp hshows
    obtain ⟨last, hlast, hscan⟩ := ih hafter
    have hflat := Part.flat_of_isExit hid
    exact ⟨last, hlast, fun depth tail => (scan_flat hstops hnode hflat.1 hflat.2 ..).trans
      (hscan depth tail)⟩
  | skip hid hskipped _ ih =>
    obtain ⟨hnode, hbelow, hafter⟩ := Forest.forall_ids_node.mp hshows
    obtain ⟨last, hlast, hscan⟩ := ih hafter
    refine ⟨last, hlast, fun depth tail => ?_⟩
    rw [scan_flat hstops hnode (by rw [hid]; rfl) (by simp [hid]),
      scan_skipped hstops hskipped hbelow]
    exact hscan depth tail
  | loop hid _ _ ihb iha =>
    obtain ⟨hnode, hbelow, hafter⟩ := Forest.forall_ids_node.mp hshows
    obtain ⟨_, _, hinner⟩ := ihb hbelow
    obtain ⟨last, hlast, hrest⟩ := iha hafter
    refine ⟨last, hlast, fun depth tail => ?_⟩
    have hrole := hnode.role (by simp [hid])
    rw [word_node (by simp [hid]), scan_opens (by rw [Command.opens, hrole, hid]; rfl)]
    exact (hinner (depth + 1) _).trans (hrest depth tail)
  | closed hid _ _ ihb iha | continued hid _ _ _ ihb iha =>
    obtain ⟨hnode, hbelow, hafter⟩ := Forest.forall_ids_node.mp hshows
    obtain ⟨_, _, hinner⟩ := ihb hbelow
    obtain ⟨last, hlast, hrest⟩ := iha hafter
    refine ⟨last, hlast, fun depth tail => ?_⟩
    rw [word_node (Part.ne_header_of_takesPlace hid), scan_chain hnode hid]
    exact (hinner (depth + 1) _).trans (hrest depth tail)

/-! ## Where jumps lead -/

/-- A row that goes on with an alternative starts with a command that divides a block. -/
theorem divides_of_block (hf : Block part inLoop true stop f)
    (hshows : ∀ id ∈ f.ids, Shows part cmd id) (tail : List Command) :
    ∃ next rest, word part cmd f ++ tail = next :: rest ∧ next.divides = true := by
  cases f with
  | nil => cases hf
  | node next below after =>
    obtain ⟨hheader, _, _, hdivides⟩ := (hshows next (by simp)).alternative hf.isContinued
    exact ⟨cmd next, _, word_node hheader below after tail, hdivides⟩

/-- The chain that goes on with a row ends with an `end`, and the number behind it is the exit of
the chain. -/
theorem closing?_chain (hf : Block part inLoop true stop f)
    (hshows : ∀ id ∈ f.ids, Shows part cmd id) (hopen : below.isClosed part = false)
    (hcounts : Counts count n (word part cmd f ++ tail)) :
    ∃ last chain, closing? (word part cmd f ++ tail) = some (last, chain) ∧
      Counts count (below.chainExit part n f) chain := by
  induction f generalizing below n with
  | nil => cases hf
  | node next belowNext after _ ih =>
    obtain ⟨hnext, hbelow, hafter⟩ := Forest.forall_ids_node.mp hshows
    have hstops : ∀ c : Command, (fun _ => false) c = true → c.divides = true :=
      fun c hc => by cases hc
    have hcontinues : (part next).continuesChain = true := hf.isContinued
    obtain ⟨hheader, hopens, hcloses, _⟩ := hnext.alternative hcontinues
    rw [word_node hheader] at hcounts ⊢
    have hinner := hcounts.cons hnext
    have hrest := hinner.word hbelow
    have hpass : closing? (cmd next :: (word part cmd belowNext ++ (word part cmd after ++ tail))) =
        closing? (word part cmd belowNext ++ (word part cmd after ++ tail)) :=
      scan_other hopens hcloses (fun _ => rfl) _
    rw [Forest.chainExit, hopen, hpass]
    cases hf with
    | closed _ hb _ =>
      obtain ⟨last, _, hscan⟩ := scan_block hstops hb hbelow
      refine ⟨last, word part cmd after ++ tail, hscan 0 _, ?_⟩
      have hclosed : belowNext.isClosed part = true := by
        rw [hb.isClosed_eq]
        rfl
      cases after with
      | nil => exact hrest
      | node _ _ _ =>
        rw [Forest.chainExit, if_pos hclosed]
        exact hrest
    | continued _ _ hb ha =>
      obtain ⟨_, _, hscan⟩ := scan_block hstops hb hbelow
      have hskip : closing? (word part cmd belowNext ++ (word part cmd after ++ tail)) =
          closing? (word part cmd after ++ tail) := hscan 0 _
      rw [hskip]
      exact ih ha hafter (by rw [hb.isClosed_eq]; rfl) hrest

/-- A test leads where the brackets tell if it leads to the number after everything below it. -/
theorem testLeads (hbelow : ∀ j ∈ below.ids, Shows part cmd j)
    (hafter : ∀ j ∈ after.ids, Shows part cmd j) (hbody : Block part inLoop false .close below ∨
      (Block part inLoop false .jump below ∧ ∃ stop, Block part inLoop true stop after))
    (htarget : c.target? = some n) (hcounts : Counts count n (word part cmd after ++ tail)) :
    TestLeads count c (word part cmd below ++ (word part cmd after ++ tail)) := by
  have hstops : ∀ c : Command, c.divides = true → c.divides = true := fun _ hc => hc
  rcases hbody with hb | ⟨hb, stop, ha⟩
  · obtain ⟨last, hlast, hscan⟩ := scan_block hstops hb hbelow
    have hrole : last.role = .close := by simpa [Command.closes] using hlast (.inl rfl)
    refine ⟨last, _, hscan 0 _, ?_⟩
    rw [hrole, if_neg (by decide), hcounts.nextIndex_eq]
    exact htarget
  · obtain ⟨_, _, hscan⟩ := scan_block hstops hb hbelow
    cases after with
    | nil => cases ha
    | node next belowNext rest =>
      have hnext := hafter next (by simp)
      have hcontinues : (part next).continuesChain = true := ha.isContinued
      obtain ⟨hheader, hopens, hcloses, hdivides⟩ := hnext.alternative hcontinues
      have hrole := hnext.role hheader
      rw [word_node hheader] at hcounts ⊢
      have hfound : boundary?
          (cmd next :: (word part cmd belowNext ++ (word part cmd rest ++ tail))) =
          some (cmd next, word part cmd belowNext ++ (word part cmd rest ++ tail)) := by
        simp [boundary?, scan, hopens, hcloses, hdivides]
      refine ⟨cmd next, _, (hscan 0 _).trans hfound, ?_⟩
      cases hp : part next <;> rw [hp] at hcontinues hrole <;> try cases hcontinues
      · -- An `else if` has the number itself.
        have helse : (cmd next).role = .elseBranch := hrole
        rw [if_pos helse]
        exact ⟨n, hcounts.number?_eq hnext (by rw [hp]; rfl), htarget⟩
      · -- An `else` is not executed.
        have hrest := hcounts.cons hnext
        rw [hp] at hrest
        have helse : (cmd next).role ≠ .elseBranch := by
          rw [hrole]
          decide
        rw [if_neg helse, hrest.nextIndex_eq]
        exact htarget

theorem afterSkipped_skipped (hf : Skipped part inLoop f)
    (hshows : ∀ id ∈ f.ids, Shows part cmd id) (tail : List Command) :
    afterSkipped (word part cmd f ++ tail) = tail := by
  have hnone : ∀ {id : NodeId}, Shows part cmd id → (cmd id).index.isNone = !(part id).isLive := by
    intro id hid
    rw [← hid.live, Command.number?, Option.isSome_map, Option.not_isSome]
  induction hf with
  | @idle id _ hid _ ih =>
    have hindex := hnone (hshows id (by simp))
    rw [hid] at hindex
    rw [word_node (by simp [hid]), afterSkipped, hindex]
    exact ih (Forest.forall_ids_node.mp hshows).2.2
  | @plain id hid =>
    have hindex := hnone (hshows id (by simp))
    have hrole := (hshows id (by simp)).role (by simp [hid])
    rw [hid] at hindex hrole
    rw [word_node (by simp [hid]), afterSkipped, hindex, hrole]
    rfl
  | @exit id hid _ =>
    have hindex := hnone (hshows id (by simp))
    have hrole := (hshows id (by simp)).role (by rintro hp; simp [hp, Part.isExit] at hid)
    rcases Part.eq_of_isExit hid with hp | hp <;> rw [hp] at hindex hrole <;>
      rw [word_node (by simp [hp]), afterSkipped, hindex, hrole] <;> rfl
  | @skip id _ hid _ ih =>
    have hrole := (hshows id (by simp)).role (by simp [hid])
    rw [hid] at hrole
    rw [word_node (by simp [hid]), afterSkipped, hrole]
    simpa [Part.role, word] using ih (Forest.forall_ids_node.mp hshows).2.1

def Around (count : Nat) (blocks : Blocks) (loop : Option (Nat × Nat)) : Prop :=
  ∃ head inner last after numbers, enclosingLoop? blocks = some (head, inner) ∧
    closing? inner = some (last, after) ∧ loop = some numbers ∧ head.number? = some numbers.1 ∧
    Counts count numbers.2 after

theorem Around.cons (h : Around count blocks loop)
    {b : Command × List Command} (hb : b.1.role ≠ .loop) : Around count (b :: blocks) loop := by
  obtain ⟨head, inner, last, after, numbers, hfind, hrest⟩ := h
  refine ⟨head, inner, last, after, numbers, ?_, hrest⟩
  rw [enclosingLoop?, List.find?_cons_of_neg (by simpa using hb)]
  exact hfind

/-- What is known of the hidden jump that ends a row. -/
structure Exits (count : Nat) (blocks : Blocks) (stop : Stop) (exit : Nat) (tail : List Command) :
    Prop where
  loop : stop = .loop → ∃ b, blocks.head? = some b ∧ b.1.role = .loop ∧ b.1.number? = some exit
  jump : stop = .jump → ∃ next after last chain, tail = next :: after ∧ next.divides = true ∧
    closing? tail = some (last, chain) ∧ Counts count exit chain

def closedBy (stop : Stop) (blocks : Blocks) : Blocks :=
  match stop with
  | .close | .loop => blocks.tail
  | .script | .jump => blocks

/-- A command without brackets leaves the open blocks as they are. -/
theorem allMatched_flat (hid : Shows part cmd id) (hopens : (part id).opensBlock = false)
    (hclose : part id ≠ .close) (hmatched : part id ≠ .header →
      Matched count blocks (cmd id) (word part cmd below ++ (word part cmd after ++ tail)))
    (hrest : AllMatched count blocks (word part cmd below ++ (word part cmd after ++ tail))) :
    AllMatched count blocks (word part cmd (.node id below after) ++ tail) := by
  by_cases hheader : part id = .header
  · rw [word_node_of_header hheader]
    exact hrest
  · obtain ⟨ho, hc, -⟩ := hid.flat hheader hopens hclose
    have hopened : opened (cmd id) (word part cmd below ++ (word part cmd after ++ tail)) blocks =
        blocks := by
      simp [opened, ho, hc]
    rw [word_node hheader]
    refine ⟨hmatched hheader, ?_⟩
    rw [hopened]
    exact hrest

theorem matched_of_isSingle (hid : Shows part cmd id)
    (hheader : part id ≠ .header) (hpart : (part id).isSingle = true) :
    Matched count blocks (cmd id) rest := by
  have hrole := hid.role hheader
  have hvisible : (cmd id).origin ≠ .hiddenJump := by
    rw [Ne, hid.hidden]
    rintro hp
    simp [hp, Part.isSingle] at hpart
  unfold Matched
  cases hp : part id <;> rw [hp] at hrole hpart <;> simp_all [Part.isSingle, Part.role]

theorem matched_of_isExit (hid : Shows part cmd id) (hpart : (part id).isExit = true)
    (hlinked : LinkedNode part (fun j => (cmd j).target?) next loop n id)
    (hloop : Around count blocks loop) :
    Matched count blocks (cmd id) rest := by
  obtain ⟨head, inner, last, after, numbers, hfind, hend, rfl, hnumber, hcounts⟩ := hloop
  have hrole := hid.role (by rintro hp; simp [hp, Part.isExit] at hpart)
  unfold LinkedNode at hlinked
  unfold Matched
  rcases Part.eq_of_isExit hpart with hp | hp <;> rw [hp] at hrole hlinked <;> rw [hrole]
  · exact ⟨head, inner, last, after, hfind, hend, by rw [hcounts.nextIndex_eq]; exact hlinked⟩
  · exact ⟨head, inner, numbers.1, hfind, hnumber, hlinked⟩

theorem matched_of_skip (hid : Shows part cmd id) (hpart : part id = .skip)
    (hbelow : Skipped part inLoop below) (hshows : ∀ j ∈ below.ids, Shows part cmd j)
    (hlinked : LinkedNode part (fun j => (cmd j).target?) next loop n id)
    (hcounts : Counts count next tail) :
    Matched count blocks (cmd id) (word part cmd below ++ tail) := by
  have hrole := hid.role (by simp [hpart])
  simp only [LinkedNode, hpart] at hlinked
  simp only [Matched, hrole, hpart, Part.role]
  rw [afterSkipped_skipped hbelow hshows, hcounts.nextIndex_eq]
  exact hlinked

theorem allMatched_skipped (hf : Skipped part inLoop f) (hshows : ∀ id ∈ f.ids, Shows part cmd id)
    (hlinked : Linked part (fun j => (cmd j).target?) n loop exit f)
    (hcounts : Counts count n (word part cmd f ++ tail))
    (hloop : inLoop = true → Around count blocks loop) (htail : AllMatched count blocks tail) :
    AllMatched count blocks (word part cmd f ++ tail) := by
  induction hf generalizing n exit with
  | idle hid _ ih =>
    obtain ⟨hnode, -, hafter⟩ := Forest.forall_ids_node.mp hshows
    refine allMatched_flat hnode (by rw [hid]; rfl) (by simp [hid])
      (fun hheader => matched_of_isSingle hnode hheader (by rw [hid]; rfl)) ?_
    exact ih hafter hlinked.2.2 (hcounts.inner hnode)
  | @plain id hid =>
    have hnode := hshows id (by simp)
    exact allMatched_flat hnode (by rw [hid]; rfl) (by simp [hid])
      (fun hheader => matched_of_isSingle hnode hheader (by rw [hid]; rfl)) htail
  | @exit id hid hin =>
    have hnode := hshows id (by simp)
    have hflat := Part.flat_of_isExit hid
    exact allMatched_flat hnode hflat.1 hflat.2 (fun _ =>
      matched_of_isExit hnode hid hlinked.1 (hloop hin)) htail
  | skip hid hskipped ih =>
    obtain ⟨hnode, hbelow, -⟩ := Forest.forall_ids_node.mp hshows
    have hbody := hcounts.inner hnode
    obtain ⟨hhere, hlbelow, _⟩ := hlinked
    rw [if_neg (by simp [hid])] at hlbelow
    refine allMatched_flat hnode (by rw [hid]; rfl) (by simp [hid])
      (fun _ => matched_of_skip hnode hid hskipped hbelow hhere (hbody.word hbelow)) ?_
    exact ih hbelow hlbelow hbody

/-- The stack of open blocks before a row: a row that goes on with an alternative stands in the
block that an `if` opened. -/
def Stacked (inChain : Bool) (blocks stack : Blocks) : Prop :=
  if inChain then ∃ b, stack = b :: blocks ∧ b.1.role = .branch else stack = blocks

theorem opened_chain (hid : Shows part cmd id)
    (hplace : (part id).takesPlace inChain = true) (hstack : Stacked inChain blocks stack)
    (rest : List Command) :
    ∃ b, opened (cmd id) rest stack = b :: blocks ∧ b.1.role = .branch := by
  cases inChain with
  | false =>
    have hpart : part id = .branch := by simpa [Part.takesPlace] using hplace
    have hrole := hid.role (by simp [hpart])
    rw [hpart] at hrole
    have hopens : (cmd id).opens = true := by rw [Command.opens, hrole]; rfl
    obtain rfl : stack = blocks := hstack
    exact ⟨(cmd id, rest), by simp [opened, hopens], hrole⟩
  | true =>
    obtain ⟨_, hopens, hcloses, _⟩ := hid.alternative hplace
    obtain ⟨b, rfl, hb⟩ := hstack
    exact ⟨b, by simp [opened, hopens, hcloses], hb⟩

/-- A command of a chain leads where the brackets tell. -/
theorem matched_chain (hid : Shows part cmd id) (hplace : (part id).takesPlace inChain = true)
    (hstack : Stacked inChain blocks stack)
    (hlinked : LinkedNode part (fun j => (cmd j).target?) next loop n id)
    (htest : (cmd id).target? = some next → TestLeads count (cmd id) rest) :
    Matched count stack (cmd id) rest := by
  have hrole := hid.role (Part.ne_header_of_takesPlace hplace)
  unfold LinkedNode at hlinked
  unfold Matched
  cases inChain with
  | false =>
    have hpart : part id = .branch := by simpa [Part.takesPlace] using hplace
    rw [hpart] at hlinked hrole
    rw [hrole]
    exact htest hlinked
  | true =>
    obtain ⟨b, rfl, hb⟩ := hstack
    have hdivided : Divided (b :: blocks) := ⟨b, rfl, hb⟩
    cases hp : part id <;> rw [hp] at hplace hlinked hrole <;> try cases hplace
    · rw [hrole]
      exact ⟨htest hlinked, hdivided⟩
    · rw [hrole]
      exact hdivided

/-- A command of a chain is matched, and what is below it stands in the block of the chain. -/
theorem allMatched_chain (hshows : ∀ j ∈ (Forest.node id below after).ids, Shows part cmd j)
    (hplace : (part id).takesPlace inChain = true) (hstack : Stacked inChain blocks stack)
    (hlinked : Linked part (fun j => (cmd j).target?) n loop exit (.node id below after))
    (hbody : Block part inLoop false .close below ∨
      (Block part inLoop false .jump below ∧ ∃ stop, Block part inLoop true stop after))
    (hcounts : Counts count n (word part cmd (.node id below after) ++ tail))
    (hinner : ∀ b : Command × List Command, b.1.role = .branch →
      AllMatched count (b :: blocks) (word part cmd below ++ (word part cmd after ++ tail))) :
    AllMatched count stack (word part cmd (.node id below after) ++ tail) := by
  obtain ⟨hnode, hbelow, hafter⟩ := Forest.forall_ids_node.mp hshows
  have hrest := hcounts.rest hshows
  obtain ⟨b, hopened, hb⟩ :=
    opened_chain hnode hplace hstack (word part cmd below ++ (word part cmd after ++ tail))
  rw [word_node (Part.ne_header_of_takesPlace hplace)]
  refine ⟨matched_chain hnode hplace hstack hlinked.1 fun htarget => ?_, ?_⟩
  · exact testLeads hbelow hafter hbody htarget hrest
  · rw [hopened]
    exact hinner b hb

theorem allMatched_end (hid : Shows part cmd id) (hpart : part id = .close)
    (hopen : blocks ≠ []) (htail : AllMatched count blocks.tail tail) :
    AllMatched count blocks (cmd id :: tail) := by
  have hrole := hid.role (by simp [hpart])
  rw [hpart] at hrole
  have hopens : (cmd id).opens = false := by rw [Command.opens, hrole]; rfl
  have hopened : opened (cmd id) tail blocks = blocks.tail := by
    simp [opened, hopens, hid.closes hpart]
  refine ⟨?_, ?_⟩
  · simp only [Matched, hrole, Part.role]
    exact hopen
  · rw [hopened]
    exact htail

/-- A hidden jump is matched by what stands behind it. -/
theorem matched_of_jump (hid : Shows part cmd id)
    (hpart : part id = .jump) (h : HiddenLeads count blocks (cmd id) rest) :
    Matched count blocks (cmd id) rest := by
  have hrole := hid.role (by simp [hpart])
  simp only [Matched, hrole, hpart, Part.role]
  exact fun _ => h

/-- The jumps of a well-built row lead where the brackets tell. -/
theorem allMatched_block (hf : Block part inLoop inChain stop f)
    (hshows : ∀ id ∈ f.ids, Shows part cmd id)
    (hlinked : Linked part (fun j => (cmd j).target?) n loop exit f)
    (hcounts : Counts count n (word part cmd f ++ tail))
    (hloop : inLoop = true → Around count blocks loop) (hexit : Exits count blocks stop exit tail)
    (hopen : stop = .close ∨ stop = .loop → blocks ≠ []) (hstack : Stacked inChain blocks stack)
    (htail : AllMatched count (closedBy stop blocks) tail) :
    AllMatched count stack (word part cmd f ++ tail) := by
  have hends : ∀ c : Command, (fun _ => false) c = true → c.divides = true :=
    fun c hc => by cases hc
  induction hf generalizing n exit loop blocks stack tail with
  | script =>
    obtain rfl : stack = blocks := hstack
    exact htail
  | @close _ id hid =>
    obtain rfl : stack = blocks := hstack
    rw [word_node (by simp [hid])]
    exact allMatched_end (hshows id (by simp)) hid (hopen (.inl rfl)) htail
  | @jump _ id hid =>
    obtain rfl : stack = blocks := hstack
    have hnode := hshows id (by simp)
    have hhere := hlinked.1
    simp only [LinkedNode, hid] at hhere
    obtain ⟨next, after, last, chain, hnext, hdivides, hend, hchain⟩ := hexit.jump rfl
    refine allMatched_flat hnode (by rw [hid]; rfl) (by simp [hid]) (fun _ =>
      matched_of_jump hnode hid ?_) htail
    refine ⟨next, after, hnext, .inr ⟨hdivides, last, chain, hend, ?_⟩⟩
    rw [hchain.nextIndex_eq]
    exact hhere
  | @round _ id last hid hlast =>
    obtain rfl : stack = blocks := hstack
    have hnode := hshows id (by simp)
    have hlastNode := hshows last (by simp)
    have hhere := hlinked.1
    simp only [LinkedNode, hid] at hhere
    obtain ⟨b, hb, hrole, hnumber⟩ := hexit.loop rfl
    refine allMatched_flat hnode (by rw [hid]; rfl) (by simp [hid]) (fun _ =>
      matched_of_jump hnode hid ?_) ?_
    · rw [word_node (by simp [hlast])]
      exact ⟨cmd last, _, rfl, .inl ⟨hlastNode.closes hlast, b, exit, hb, hrole, hnumber, hhere⟩⟩
    · rw [word, List.nil_append, word_node (by simp [hlast])]
      exact allMatched_end hlastNode hlast (hopen (.inr rfl)) htail
  | single hid _ ih =>
    obtain rfl : stack = blocks := hstack
    obtain ⟨hnode, -, hafter⟩ := Forest.forall_ids_node.mp hshows
    have hflat := Part.flat_of_isSingle hid
    refine allMatched_flat hnode hflat.1 hflat.2 (fun hheader =>
      matched_of_isSingle hnode hheader hid) ?_
    exact ih hafter hlinked.2.2 (hcounts.rest hshows) hloop hexit hopen rfl htail
  | exit hid _ ih =>
    obtain rfl : stack = blocks := hstack
    obtain ⟨hnode, -, hafter⟩ := Forest.forall_ids_node.mp hshows
    have hflat := Part.flat_of_isExit hid
    refine allMatched_flat hnode hflat.1 hflat.2 (fun _ =>
      matched_of_isExit hnode hid hlinked.1 (hloop rfl)) ?_
    exact ih hafter hlinked.2.2 (hcounts.rest hshows) hloop hexit hopen rfl htail
  | skip hid hskipped _ ih =>
    obtain rfl : stack = blocks := hstack
    obtain ⟨hnode, hbelow, hafter⟩ := Forest.forall_ids_node.mp hshows
    obtain ⟨hhere, hlbelow, hlafter⟩ := hlinked
    rw [if_neg (by simp [hid])] at hlbelow
    have hrest := hcounts.rest hshows
    refine allMatched_flat hnode (by rw [hid]; rfl) (by simp [hid])
      (fun _ => matched_of_skip hnode hid hskipped hbelow hhere hrest) ?_
    refine allMatched_skipped hskipped hbelow hlbelow (hcounts.inner hnode) hloop ?_
    exact ih hafter hlafter hrest hloop hexit hopen rfl htail
  | @loop _ _ id below after hid hblock _ ihb iha =>
    obtain rfl : stack = blocks := hstack
    obtain ⟨hnode, hbelow, hafter⟩ := Forest.forall_ids_node.mp hshows
    have hrole := hnode.role (by simp [hid])
    rw [hid] at hrole
    have hopens : (cmd id).opens = true := by rw [Command.opens, hrole]; rfl
    obtain ⟨hhere, hlbelow, hlafter⟩ := hlinked
    rw [if_pos hid, if_pos hid] at hlbelow
    simp only [LinkedNode, hid] at hhere
    have hrest := hcounts.rest hshows
    obtain ⟨last, _, hscan⟩ := scan_block hends hblock hbelow
    have hend : closing? (word part cmd below ++ (word part cmd after ++ tail)) =
        some (last, word part cmd after ++ tail) := hscan 0 _
    have hbody := hcounts.inner hnode
    rw [word_node (by simp [hid])] at hcounts ⊢
    have hnumber := hcounts.number?_eq hnode (by rw [hid]; rfl)
    refine ⟨?_, ?_⟩
    · simp only [Matched, hrole, Part.role]
      refine ⟨last, _, hend, ?_⟩
      rw [hrest.nextIndex_eq]
      simpa [hid] using hhere
    · simp only [opened, hopens, if_true]
      refine ihb hbelow hlbelow hbody (fun _ => ?_) ⟨fun _ => ⟨_, rfl, hrole, hnumber⟩,
        by simp⟩ (fun _ => by simp)
        rfl ?_
      · refine ⟨cmd id, _, last, _, _, ?_, hend, rfl, hnumber, hrest⟩
        rw [enclosingLoop?, List.find?_cons_of_pos (by simp [hrole, Part.role])]
      · exact iha hafter hlafter hrest hloop hexit hopen rfl htail
  | closed hid hblock _ ihb iha =>
    obtain ⟨hnode, hbelow, hafter⟩ := Forest.forall_ids_node.mp hshows
    refine allMatched_chain hshows hid hstack hlinked (.inl hblock) hcounts fun b hb => ?_
    obtain ⟨_, hlbelow, hlafter⟩ := hlinked
    rw [if_neg (Part.opensBlock_of_takesPlace hid).2] at hlbelow
    refine ihb hbelow hlbelow (hcounts.inner hnode) (fun hin => (hloop hin).cons (by simp [hb]))
      ⟨by simp, by simp⟩
      (fun _ => by simp) rfl ?_
    exact iha hafter hlafter (hcounts.rest hshows) hloop hexit hopen rfl htail
  | @continued _ _ _ id below after hid htest hblock hchain ihb iha =>
    have hne := (Part.opensBlock_of_takesPlace hid).2
    obtain ⟨hnode, hbelow, hafter⟩ := Forest.forall_ids_node.mp hshows
    have hrest := hcounts.rest hshows
    refine allMatched_chain hshows hid hstack hlinked (.inr ⟨hblock, _, hchain⟩) hcounts fun b hb =>
      ?_
    obtain ⟨_, hlbelow, hlafter⟩ := hlinked
    rw [if_neg hne, if_neg hne] at hlbelow
    refine ihb hbelow hlbelow (hcounts.inner hnode) (fun hin => (hloop hin).cons (by simp [hb]))
      ⟨by simp, fun _ => ?_⟩ (by simp) rfl ?_
    · -- The chain goes on with an alternative, and its `end` is found behind that.
      have hopen' : below.isClosed part = false := by
        rw [hblock.isClosed_eq]
        rfl
      obtain ⟨last, chain, hend, hcounts⟩ := closing?_chain hchain hafter hopen' hrest
      obtain ⟨next, rest, hnext, hdivides⟩ := divides_of_block hchain hafter tail
      exact ⟨next, rest, last, chain, hnext, hdivides, hend, hcounts⟩
    · exact iha hafter hlafter hrest hloop hexit hopen ⟨b, rfl, hb⟩ htail

end Rows

end Brackets

open Brackets in
/-- The jumps of a compiled script lead where its brackets tell. -/
theorem Emitted.allMatched {part : NodeId → Part} {cmd : NodeId → Command} {g : Forest} {o : Output}
    (h : Emitted part cmd g o) :
    AllMatched o.standardCount [] (o.commands.toList.filter fun c => c.origin != .header) := by
  have hshows : ∀ id ∈ g.ids, Shows part cmd id := by
    intro id hid
    refine ⟨h.role id hid, h.hidden id hid, ?_⟩
    obtain ⟨a, b, hsplit⟩ := List.append_of_mem hid
    rw [h.index a id b hsplit]
    cases (part id).isLive <;> rfl
  have hword : (o.commands.toList.filter fun c => c.origin != .header) = word part cmd g := by
    rw [h.commands, word_eq, List.filter_map]
    congr 1
    refine List.filter_congr fun id hid => ?_
    rw [Bool.eq_iff_iff, Function.comp, bne_iff_ne, bne_iff_ne, Ne, Ne, h.header id hid]
  have hcounts : Counts o.standardCount 0 (word part cmd g ++ []) := by
    rw [List.append_nil, word_eq]
    refine Counts.of_index ?_ h.index
    rw [h.count, Forest.count_eq]
  rw [hword, ← List.append_nil (word part cmd g)]
  exact allMatched_block h.block hshows h.linked hcounts (by simp) ⟨by simp, by simp⟩ (fun hc =>
    by simp at hc) rfl rfl

/-- The jumps of every script that is compiled without problems lead where its brackets tell. -/
theorem jumps_match_brackets (v : Version) (arguments : List String)
    (objects : Option ObjectLibrary) (lines : List String) (o : Output)
    (hcompile : compile ⟨.builtin, v, arguments, objects⟩ lines = .ok o)
    (hok : o.isSuccessful = true) :
    Brackets.AllMatched o.standardCount [] (o.commands.toList.filter fun c =>
      c.origin != .header) := by
  obtain ⟨g, s, q, _, rfl, hfinished, -⟩ := finished_of_compile builtin_lawful hcompile hok
  exact hfinished.emitted.allMatched

/-- The jumps of the sample lead where its brackets tell: `continue` to the loop, `break` after it,
`if` behind the jump that ends its branch, and that jump to the one at the end of the loop. -/
theorem sampleScript_matched :
    ∃ o, compile ⟨.builtin, .albionPrelude, [], none⟩ sampleScript = .ok o ∧
    o.isSuccessful = true ∧
    (o.commands.toList.filterMap fun c => c.destination?.map fun d => (c.index, c.text, d)) =
      sampleJumps ∧
    Brackets.AllMatched o.standardCount [] (o.commands.toList.filter fun c =>
      c.origin != .header) := by
  obtain ⟨o, hcompile, hok, hjumps⟩ := sampleScript_jumps
  exact ⟨o, hcompile, hok, hjumps, jumps_match_brackets .albionPrelude [] none sampleScript o
    hcompile hok⟩

end GameScript
