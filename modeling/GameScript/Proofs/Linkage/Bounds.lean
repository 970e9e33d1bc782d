import GameScript.Proofs.Compile.Spec

/-!
# How far jumps lead

The jumps that the block structure makes stay close: no jump of a row leads behind the row, its loop
and the chain of branches that it belongs to (`Linked.dest_le`). A plain command belongs to no
chain, so that nothing before it in a row jumps over it (`Block.dest_le`).
-/

namespace GameScript

namespace Forest

variable {part : NodeId → Part}

theorem chainExit_le (n : Nat) (below f : Forest) :
    chainExit part n below f ≤ n + f.count part := by
  induction f generalizing n below with
  | nil => exact Nat.le_add_right n _
  | node id belowNext after _ ih =>
    rw [chainExit, count]
    split
    · exact Nat.le_add_right n _
    · have hrest := ih (n + (part id).isLive.toNat + belowNext.count part) belowNext
      omega

theorem chainExit_of_isClosed {below : Forest} (h : below.isClosed part = true) (n : Nat)
    (f : Forest) :
    chainExit part n below f = n := by
  cases f with
  | nil => rfl
  | node id belowNext after => rw [chainExit, if_pos h]

theorem count_append (f g : Forest) : (f ++ g).count part = f.count part + g.count part := by
  rw [count_eq, count_eq, count_eq, ids_append, List.countP_append]

/-- A row splits at each of its nodes. -/
theorem exists_split_of_roots {f : Forest} {a b : List NodeId} {x : NodeId}
    (h : f.roots = a ++ x :: b) :
    ∃ front below rest, f = front ++ node x below rest ∧ front.roots = a := by
  induction f generalizing a with
  | nil => simp at h
  | node id below after _ ih =>
    cases a with
    | nil =>
      obtain ⟨rfl, -⟩ := List.cons.inj h
      exact ⟨nil, below, after, rfl, rfl⟩
    | cons first a =>
      obtain ⟨rfl, hrest⟩ := List.cons.inj h
      obtain ⟨front, belowX, rest, rfl, rfl⟩ := ih hrest
      exact ⟨node id below front, belowX, rest, rfl, rfl⟩

end Forest

section

variable {part : NodeId → Part} {dest : NodeId → Option Nat} {n exit bound : Nat}
  {loop : Option (Nat × Nat)}

theorem LinkedNode.dest_le {next : Nat} {id : NodeId} (h : LinkedNode part dest next loop exit id)
    (hnext : next ≤ bound) (hloop : ∀ l ∈ loop, l.1 ≤ bound ∧ l.2 ≤ bound)
    (hexit : part id = .jump → exit ≤ bound) (hjumps : (part id).jumps = true) {m : Nat}
    (hm : dest id = some m) : m ≤ bound := by
  unfold LinkedNode at h
  cases hp : part id <;> rw [hp] at h hjumps <;> try cases hjumps
  case leave =>
    obtain ⟨l, hl, rfl⟩ := Option.map_eq_some_iff.mp (h.symm.trans hm)
    exact (hloop l hl).2
  case again =>
    obtain ⟨l, hl, rfl⟩ := Option.map_eq_some_iff.mp (h.symm.trans hm)
    exact (hloop l hl).1
  case jump =>
    rw [← Option.some.inj (h.symm.trans hm)]
    exact hexit hp
  all_goals
    rw [← Option.some.inj (h.symm.trans hm)]
    exact hnext

/-- The jumps of a row stay before the end of the row, inside of the loop around it and of its
chain. -/
theorem Linked.dest_le {f : Forest} (h : Linked part dest n loop exit f)
    (hn : n + f.count part ≤ bound) (hloop : ∀ l ∈ loop, l.1 ≤ bound ∧ l.2 ≤ bound)
    (hexit : ∀ id ∈ f.roots, part id = .jump → exit ≤ bound) {id : NodeId} (hid : id ∈ f.ids)
    (hjumps : (part id).jumps = true) {m : Nat} (hm : dest id = some m) :
    m ≤ bound := by
  induction f generalizing n loop exit with
  | nil => simp at hid
  | node first below after ihb iha =>
    obtain ⟨hnode, hbelow, hafter⟩ := h
    rw [Forest.count] at hn
    simp only [Forest.ids_node, List.mem_cons, List.mem_append] at hid
    rcases hid with rfl | hid | hid
    · exact hnode.dest_le (by omega) hloop (hexit id (by simp)) hjumps hm
    · refine ihb hbelow (by omega) ?_ (fun j _ _ => ?_) hid
      · split
        · intro l hl
          obtain rfl := Option.some.inj hl
          constructor <;> (dsimp only; omega)
        · exact hloop
      · split
        · omega
        · have hchain : Forest.chainExit part (n + (part first).isLive.toNat + below.count part)
              below after ≤ _ :=
            Forest.chainExit_le _ below after
          omega
    · exact iha hafter (by omega) hloop (fun j hj => hexit j (by simp [hj])) hid

/-- A chain of branches ends before a plain command. -/
theorem Block.chainExit_le {inLoop : Bool} {stop : Stop} {x : NodeId} {belowX rest : Forest}
    (hx : part x = .plain) {front : Forest}
    (h : Block part inLoop true stop (front ++ .node x belowX rest)) (n : Nat) (below : Forest) :
    Forest.chainExit part n below (front ++ .node x belowX rest) ≤ n + front.count part := by
  induction front generalizing n below with
  | nil =>
    cases h with
    | closed hid _ _ => simp [hx, Part.takesPlace, Part.continuesChain] at hid
    | continued hid _ _ _ => simp [hx, Part.takesPlace, Part.continuesChain] at hid
  | node id belowNext after _ ih =>
    rw [Forest.node_append, Forest.chainExit, Forest.count]
    split
    · omega
    · cases h.inChain with
      | last hclosed =>
        rw [Forest.chainExit_of_isClosed hclosed]
        omega
      | more _ _ hrest =>
        have hnext := ih hrest (n + (part id).isLive.toNat + belowNext.count part) belowNext
        omega

theorem Skipped.part_ne_jump {inLoop : Bool} {f : Forest} (h : Skipped part inLoop f) {id : NodeId}
    (hid : id ∈ f.roots) :
    part id ≠ .jump := by
  induction h with
  | idle hp _ ih =>
    rcases List.mem_cons.mp hid with rfl | hid
    · rw [hp]
      decide
    · exact ih hid
  | plain hp =>
    rw [List.mem_singleton.mp hid, hp]
    decide
  | exit hp _ =>
    rw [List.mem_singleton.mp hid]
    rcases Part.eq_of_isExit hp with hp | hp <;> rw [hp] <;> decide
  | skip hp _ _ =>
    rw [List.mem_singleton.mp hid, hp]
    decide

/-- Nothing before a plain command of a row jumps over it. -/
theorem Block.dest_le {inLoop inChain : Bool} {stop : Stop} {x : NodeId} {belowX rest : Forest}
    (hx : part x = .plain) {front : Forest}
    (h : Block part inLoop inChain stop (front ++ .node x belowX rest))
    (hlinked : Linked part dest n loop exit (front ++ .node x belowX rest))
    (hn : n + front.count part ≤ bound) (hloop : ∀ l ∈ loop, l.1 ≤ bound ∧ l.2 ≤ bound)
    {id : NodeId} (hid : id ∈ front.ids) (hjumps : (part id).jumps = true) {m : Nat}
    (hm : dest id = some m) : m ≤ bound := by
  induction front generalizing n inChain with
  | nil => simp at hid
  | node first below after _ ih =>
    rw [Forest.node_append] at h hlinked
    obtain ⟨hnode, hbelow, hafter⟩ := hlinked
    rw [Forest.count] at hn
    -- What is below the first node, if its jumps to the end of the chain stay before the plain
    -- command.
    have hinner : (part first ≠ .loop → ∀ j ∈ below.roots, part j = .jump →
        below.chainExit part (n + (part first).isLive.toNat + below.count part)
          (after ++ .node x belowX rest) ≤ bound) →
        id ∈ below.ids → m ≤ bound := by
      intro hchain hid
      refine hbelow.dest_le (by omega) ?_ (fun j hj hjump => ?_) hid hjumps hm
      · split
        · intro l hl
          obtain rfl := Option.some.inj hl
          constructor <;> (dsimp only; omega)
        · exact hloop
      · split
        · omega
        · next hfirst => exact hchain hfirst j hj hjump
    have hself : part first ≠ .jump → id = first → m ≤ bound := by
      rintro hfirst rfl
      exact hnode.dest_le (by omega) hloop (fun hc => absurd hc hfirst) hjumps hm
    have hlast : ∀ {inChain}, Block part inLoop inChain stop (after ++ .node x belowX rest) →
        id ∈ after.ids → m ≤ bound :=
      fun hrest hid => ih hrest hafter (by omega) hid
    have hnil : after ++ .node x belowX rest ≠ .nil := by cases after <;> simp
    simp only [Forest.ids_node, List.mem_cons, List.mem_append] at hid
    generalize hrow : after ++ .node x belowX rest = row at h hinner hlast hnil
    cases h with
    | close _ => exact absurd rfl hnil
    | jump _ => exact absurd rfl hnil
    | round _ hclose =>
      cases after with
      | nil =>
        obtain ⟨rfl, -⟩ := Forest.node.inj hrow
        cases hx.symm.trans hclose
      | node j below after => cases after <;> cases (Forest.node.inj hrow).2.2
    | single hp hrest =>
      rcases hid with rfl | hid | hid
      · exact hself (by rintro hc; rw [hc] at hp; cases hp) rfl
      · simp at hid
      · exact hlast hrest hid
    | exit hp hrest =>
      rcases hid with rfl | hid | hid
      · exact hself (by rintro hc; rw [hc] at hp; cases hp) rfl
      · simp at hid
      · exact hlast hrest hid
    | skip hp hskipped hrest =>
      rcases hid with rfl | hid | hid
      · exact hself (by rw [hp]; decide) rfl
      · exact hinner (fun _ j hj hjump => absurd hjump (hskipped.part_ne_jump hj)) hid
      · exact hlast hrest hid
    | loop hp hbody hrest =>
      rcases hid with rfl | hid | hid
      · exact hself (by rw [hp]; decide) rfl
      · exact hinner (fun hc => absurd hp hc) hid
      · exact hlast hrest hid
    | closed hp hbody hrest =>
      rcases hid with rfl | hid | hid
      · exact hself (by rintro hc; rw [hc] at hp; cases inChain <;> cases hp) rfl
      · refine hinner (fun _ j _ _ => ?_) hid
        rw [Forest.chainExit_of_isClosed (by rw [hbody.isClosed_eq]; rfl)]
        omega
      · exact hlast hrest hid
    | continued hp htest hbody hrest =>
      rcases hid with rfl | hid | hid
      · exact hself (by rintro hc; rw [hc] at hp; cases inChain <;> cases hp) rfl
      · refine hinner (fun _ j _ _ => ?_) hid
        subst hrow
        have hchain :=
          hrest.chainExit_le hx (n + (part first).isLive.toNat + below.count part) below
        omega
      · exact hlast hrest hid

end

end GameScript
