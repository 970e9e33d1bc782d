import GameScript.Proofs.Execution.Counting

/-!
# The range of a counted loop

What the loop `for i = a to b step n` does when it is run, for literal numbers. It becomes two
assignments and a loop, which starts its rounds with a third assignment. If the commands of the loop
have their usual meaning, and its body neither writes the counter nor leaves the loop, the body is
run for `a`, `a + n`, `a + 2 * n` and so on, as long as the value before is not at the limit
(`counted_loop_visits`). If the steps hit the limit, these are the values up to the limit. Otherwise
the last one is past it (`unevenLoop_overshoots`).
-/

namespace GameScript

universe u

open Structured

def countedRow (limit start loop round : NodeId) (body after : Forest) : Forest :=
  .node limit .nil (.node start .nil (.node loop (.node round .nil body) after))

/-- The commands of a counted loop have their usual meaning. Its body neither writes the counter nor
leaves the loop, and writes no variable that it does not name. -/
structure Meaning.Respects {σ : Type u} (m : Meaning NodeId σ) (view : σ → String → Int) (t : Tree)
    (counter : String) (commands : List NodeId) (body : Forest) : Prop where
  computes : ∀ id ∈ commands, m.Computes view t id
  keeps : ∀ id ∈ body.ids, ∀ s, view (m.act id s) counter = view s counter
  frame : ∀ id ∈ body.ids, ∀ name, (∀ v ∈ (t.node id).statement.vars, v.value ≠ name) →
    ∀ s, view (m.act id s) name = view s name
  stays : ∀ s ids s', ¬Runs t m body s ids .left s'

/-- The commands of a counted loop in a tree. The loop keeps its limit in a variable that no one
else uses. -/
structure Tree.CountedLoop (t : Tree) (counter iterator : String) (a b step : Int)
    (limit start loop round : NodeId) (body : Forest) : Prop where
  setsLimit : (t.node limit).statement.Assigns iterator fun _ => b
  setsCounter : (t.node start).statement.Assigns counter fun _ => a - step
  tests : (t.node loop).statement.Tests fun store => Ahead step (store iterator) (store counter)
  moves : (t.node round).statement.Assigns counter fun store => store counter + step
  limitPart : (t.part limit).isPlain = true
  startPart : (t.part start).isPlain = true
  loopPart : t.part loop = .loop
  roundPart : (t.part round).isPlain = true
  nodup : ([limit, start, loop, round] ++ body.ids).Nodup
  iterator_ne : iterator ≠ counter
  unused : ∀ id ∈ body.ids, ∀ v ∈ (t.node id).statement.vars, v.value ≠ iterator

namespace Tree.CountedLoop

variable {σ : Type u} {t : Tree} {counter iterator : String} {a b step : Int}
  {limit start loop round : NodeId} {body : Forest} {m : Meaning NodeId σ} {view : σ → String → Int}
  {s s' : σ} {ids : List NodeId} {out : Outcome} {vs : List Int}

section

variable (h : t.CountedLoop counter iterator a b step limit start loop round body)

include h

theorem rounds (hm : m.Respects view t counter [limit, start, loop, round] body) :
    Rounds t m (view · counter) (view · iterator) step loop round body where
  head := h.loopPart
  plain := h.roundPart
  test s := by
    have hanswer := ((hm.computes loop (by simp)).of_tests h.tests s).2
    rw [Structured.Holds, h.tests.conditional, hanswer]
    exact decide_eq_true_iff
  asks s := by
    have hview := ((hm.computes loop (by simp)).of_tests h.tests s).1
    exact ⟨congrFun hview counter, congrFun hview iterator⟩
  moves s := by
    have hview := (hm.computes round (by simp)).act_of_assigns h.moves s
    constructor
    · rw [hview, Function.update_self]
    · rw [hview, Function.update_of_ne h.iterator_ne]
  keeps id hid s := ⟨hm.keeps id hid s, hm.frame id hid iterator (h.unused id hid) s⟩
  apart := by
    have hnodup := h.nodup
    simp only [List.cons_append, List.nil_append, List.nodup_cons, List.mem_cons, not_or] at hnodup
    exact ⟨hnodup.2.2.1.1, hnodup.2.2.2.1⟩
  stays := hm.stays

/-- Before the first test the counter is one step before its first value. -/
theorem state_before (hm : m.Respects view t counter [limit, start, loop, round] body) (s : σ) :
    view (m.act start (m.act limit s)) counter = a - step ∧
    view (m.act start (m.act limit s)) iterator = b := by
  have hlimit := (hm.computes limit (by simp)).act_of_assigns h.setsLimit s
  have hstart := (hm.computes start (by simp)).act_of_assigns h.setsCounter (m.act limit s)
  constructor
  · rw [hstart, Function.update_self]
  · rw [hstart, Function.update_of_ne h.iterator_ne, hlimit, Function.update_self]

theorem values_of_runs
    (hm : m.Respects view t counter [limit, start, loop, round] body)
    (hvs : Series step b (a - step) vs)
    (hrun : Runs t m (countedRow limit start loop round body .nil) s ids out s') :
    m.valuesAfter (view · counter) round s ids <+: vs ∧
      (out ≠ .cut → out = .done ∧ m.valuesAfter (view · counter) round s ids = vs) := by
  have hnodup := h.nodup
  simp only [List.cons_append, List.nil_append, List.nodup_cons, List.mem_cons, not_or] at hnodup
  obtain ⟨⟨-, -, hlimit, -⟩, ⟨-, hstart, -⟩, -⟩ := hnodup
  have hstate := h.state_before hm s
  rcases hrun.cases_plain h.limitPart with ⟨rfl, rfl, -⟩ | ⟨ids₁, rfl, hrest⟩
  · exact ⟨by simp, fun hc => absurd rfl hc⟩
  · rcases hrest.cases_plain h.startPart with ⟨rfl, rfl, -⟩ | ⟨ids₂, rfl, hloop⟩
    · simp [Meaning.valuesAfter, hlimit]
    · simp only [Meaning.valuesAfter, hlimit, hstart, if_false]
      exact (h.rounds hm).values_of_runs (by rw [hstate.1, hstate.2]; exact hvs) hloop

/-- The loop comes to its end if its rounds do. -/
theorem exists_run
    (hm : m.Respects view t counter [limit, start, loop, round] body)
    (hvs : Series step b (a - step) vs) (hbody : ∀ s, ∃ ids out s', out ≠ .cut ∧
      Runs t m body s ids out s') (s : σ) :
    ∃ ids s', Runs t m (countedRow limit start loop round body .nil) s ids .done s' := by
  have hstate := h.state_before hm s
  obtain ⟨ids, s', hrun⟩ := (h.rounds hm).exists_run (s := m.act start (m.act limit s))
    (by rw [hstate.1, hstate.2]; exact hvs) hbody
  exact ⟨_, s', .plain h.limitPart (.plain h.startPart hrun)⟩

end

end Tree.CountedLoop

/-! ## The loop in the expanded script -/

namespace Session

section

variable {e : Setting} {lines : List String} {f g inner body : Forest} {s : Session}
  {head next : NodeId} {names names' : NameSupply} {y : Expansion} {x : Generated}
  {counter : String} {a b step : Int}

theorem Unrolled.filter_isFrom (hu : Unrolled e (buildTree e lines) head inner names names' y x
      next body s g)
    (hx : Expanding e (buildTree e lines) f s g []) (hhead : x.head.isSome = true)
    (hlength : ∀ z : Generated, z.StandFor e ((buildTree e lines).node head).statement →
      (z.front ++ z.inner).length = (x.front ++ x.inner).length) :
    s.tree.preorder.filter (s.isFrom head) = List.range' next (x.front ++ x.inner).length := by
  obtain ⟨after, hrow⟩ := hu.row
  obtain ⟨z, hz, hstatements⟩ := hx.provenance.whole head hu.retired
  rw [hx.spans.preorder_eq]
  -- They are there, and there are no more of them.
  have hsublist : (List.range' next (x.front ++ x.inner).length).Sublist g.ids := by
    have hids := hrow.ids_sublist
    rw [Forest.ids_node, ids_loopRow, ← length_of_isSome_head hhead] at hids
    exact ((List.sublist_append_left _ _).trans (List.sublist_append_right _ _)).trans
      (List.sublist_of_cons_sublist hids)
  have hfrom : (List.range' next (x.front ++ x.inner).length).filter (s.isFrom head) =
      List.range' next (x.front ++ x.inner).length := by
    refine List.filter_eq_self.mpr fun id hid => ?_
    obtain ⟨i, hi, rfl⟩ := List.mem_range'.mp hid
    obtain ⟨horigin, hheader, -⟩ := hu.nodes i _ (List.getElem?_eq_getElem hi)
    simp [isFrom, horigin, hheader]
  have hle := hsublist.filter (s.isFrom head)
  rw [hfrom] at hle
  refine (hle.eq_of_length ?_).symm
  rw [List.length_range', ← hlength z hz, ← hstatements, List.length_map]

theorem Unrolled.countedLoop (hu : Unrolled e (buildTree e lines) head inner names names' y x
      next body s g)
    (hx : Expanding e (buildTree e lines) f s g []) (he : e.grammar = .builtin)
    (hpending : isPendingShorthand ((buildTree e lines).node head) = true)
    (hheader : ((buildTree e lines).node head).statement.IsHeader e.objects)
    (hcounts : ((buildTree e lines).node head).statement.CountsFrom counter a b step)
    (hstep : step ≠ 0) :
    x.before.length = 2 ∧ x.round.length = 1 ∧
      s.tree.preorder.filter (s.isFrom head) = List.range' next 4 ∧
      s.tree.CountedLoop counter names.fresh.1 a b step next (next + 1) (next + 2)
      (next + 3) body := by
  have hg : e.grammar.Lawful := he ▸ builtin_lawful
  obtain ⟨hfresh, hlines⟩ := hheader.counts he hcounts hstep hu.plan hu.read
  have hfour : ∀ z : Generated, z.StandFor e ((buildTree e lines).node head).statement →
      (z.front ++ z.inner).length = 4 := by
    rintro z ⟨_, _, _, hplan, hread⟩
    obtain ⟨-, hlines⟩ := hheader.counts he hcounts hstep hplan hread
    cases hlines
    rfl
  obtain @⟨l, i, w, r, hl, hi, hw, hr⟩ := hlines
  have hfrom : s.tree.preorder.filter (s.isFrom head) = List.range' next 4 :=
    hu.filter_isFrom hx rfl hfour
  obtain ⟨hperforms, -⟩ :=
    Generated.wellFormed_of_isRead hg (nest_prepared e lines head) hpending hu.plan hu.read
  have hpart : ∀ k u role, ([l, i] ++ [w] ++ [r])[k]? = some u → u.Performs e role → role = .plain ∨
      role = .loop →
      s.tree.part (next + k) = if role = .plain then .shorthand else .loop := by
    intro k u role hk hu' hrole
    obtain ⟨horigin, -, rfl⟩ := hu.nodes k u hk
    exact Node.part_of_performs horigin hu' hrole
  obtain ⟨after, hrow⟩ := hu.row
  have hids := hrow.ids_subset
  have hnodup := hrow.nodup hx.spans.nodup_ids
  rw [Forest.ids_node, ids_loopRow] at hids hnodup
  have hnodup : (List.range' next 4 ++ (body.ids ++ after.ids)).Nodup :=
    (List.nodup_cons.mp hnodup).2
  rw [← List.append_assoc, List.nodup_append] at hnodup
  obtain ⟨-, howns⟩ := hu.owns hfresh
  refine ⟨rfl, rfl, hfrom, ?_, ?_, ?_, ?_, ?_, ?_, ?_, ?_, ?_, ?_, ?_⟩
  · exact (hu.nodes 0 l rfl).2.2 ▸ hl
  · exact (hu.nodes 1 i rfl).2.2 ▸ hi
  · exact (hu.nodes 2 w rfl).2.2 ▸ hw
  · exact (hu.nodes 3 r rfl).2.2 ▸ hr
  · have hp := hpart 0 l .plain rfl (hperforms.before l (by simp)) (.inl rfl)
    rw [Nat.add_zero] at hp
    rw [hp]
    rfl
  · rw [hpart 1 i .plain rfl (hperforms.before i (by simp)) (.inl rfl)]
    rfl
  · rw [hpart 2 w .loop rfl (hperforms.head w rfl) (.inr rfl)]
    rfl
  · rw [hpart 3 r .plain rfl (hperforms.round r (by simp)) (.inl rfl)]
    rfl
  · exact hnodup.1
  · -- The header names the counter, and it is not generated.
    obtain ⟨c, hc, hname, -⟩ := hcounts.exists_var
    have hvars : c ∈ (s.node head).statement.vars := by
      rw [(hx.provenance.retired head hu.retired).2]
      exact hc
    rintro hsame
    have hgenerated := howns.only head (hids (List.mem_cons_self ..)) c hvars
      (hname.trans hsame.symm)
    cases hgenerated.1.symm.trans hu.retired
  · intro id hid v hv hvalue
    have hmem : id ∈ g.ids := hids (by simp [hid])
    obtain ⟨horigin, hheader⟩ := howns.only id hmem v hv hvalue
    have hnew : id ∈ List.range' next 4 := by
      rw [← hfrom, hx.spans.preorder_eq, List.mem_filter]
      exact ⟨hmem, by simp [isFrom, horigin, hheader]⟩
    exact (List.nodup_append.mp hnodup.1).2.2 id hnew id hid rfl

theorem exists_countedLoop (he : e.grammar = .builtin)
    (hpending : isPendingShorthand ((buildTree e lines).node head) = true)
    (hfindings : ((buildTree e lines).node head).findings e.objects = [])
    (hcounts : ((buildTree e lines).node head).statement.CountsFrom counter a b step)
    (hstep : step ≠ 0) (hexpand : (Session.start (buildTree e lines)).expand e = .ok s) :
    ∃ limit start loop round body after iterator,
      s.tree.preorder.filter (s.isFrom head) = [limit, start, loop, round] ∧
      s.tree.forest.Has head .nil (countedRow limit start loop round body after) ∧
      (∃ inner after, (buildTree e lines).forest.Has head inner after ∧
        SameLines (buildTree e lines) body inner) ∧
      s.tree.CountedLoop counter iterator a b step limit start loop round body := by
  have hg : e.grammar.Lawful := he ▸ builtin_lawful
  obtain ⟨f, hf⟩ : ∃ f, (buildTree e lines).Spans f :=
    (nest_spans (readAll_regular e.grammar e.version lines)).imp fun f hf => hf.1
  have hstart := start_expanding hg lines hf
  have hheader := (nest_prepared e lines head).isHeader hg hpending hfindings
  obtain ⟨inner, after, hinner⟩ :=
    Forest.has_of_mem (hstart.waiting head (hstart.settled rfl head hpending)).1
  obtain ⟨g, names, names', y, x, next, body, hx, -, hu⟩ :=
    exists_unrolled he hf hheader hpending hcounts.isLoopShorthand (hcounts.not_stepsByZero hstep)
      hinner hexpand
  obtain ⟨hbefore, hround, hfrom, hcounted⟩ := hu.countedLoop hx he hpending hheader hcounts hstep
  obtain ⟨after', hrow⟩ := hu.row
  refine ⟨next, next + 1, next + 2, next + 3, body, after', names.fresh.1, hfrom, ?_,
    ⟨inner, after, ?_, hu.lines⟩, hcounted⟩
  · rw [hx.spans.forest_eq]
    rw [loopRow, hbefore, hround] at hrow
    exact hrow
  · rw [hf.forest_eq]
    exact hinner

end

end Session

/-- The range of a counted loop with literal numbers. Behind its header stand two assignments and a
loop, which starts its rounds with a third one, and then has the lines of the body. A run of these
commands gets to the body with the values `a`, `a + step`, `a + 2 * step`, … of the counter, up to
the first one that is at the limit or past it, and does not get there if one step before `a` is at
the limit or past it already. If the steps hit the limit, these are the values that are not past
it. -/
theorem counted_loop_visits (v : Version) (arguments : List String) (objects : Option ObjectLibrary)
    (lines : List String) (s : Session) (head : NodeId) (counter : String) (a b step : Int)
    (hpending : Session.isPendingShorthand ((buildTree ⟨.builtin, v, arguments, objects⟩ lines).node
      head) = true)
    (hfindings : ((buildTree ⟨.builtin, v, arguments, objects⟩ lines).node head).findings
      objects = [])
    (hcounts : ((buildTree ⟨.builtin, v, arguments, objects⟩ lines).node head).statement.CountsFrom
      counter a b step)
    (hstep : step ≠ 0)
    (hexpand : (Session.start (buildTree ⟨.builtin, v, arguments, objects⟩ lines)).expand
      ⟨.builtin, v, arguments, objects⟩ = .ok s) :
    ∃ limit start loop round body after vs,
      s.tree.preorder.filter (s.isFrom head) = [limit, start, loop, round] ∧
      s.tree.forest.Has head .nil (countedRow limit start loop round body after) ∧
      (∃ inner after, (buildTree ⟨.builtin, v, arguments, objects⟩ lines).forest.Has head
        inner after ∧
        Session.SameLines (buildTree ⟨.builtin, v, arguments, objects⟩ lines) body inner) ∧
      Lists a step (fun x => Ahead step b (x - step)) vs ∧
      (step ∣ b - a → Lists a step (fun x => ¬Ahead step x b) vs) ∧
      ∀ {σ : Type u} (m : Meaning NodeId σ) (view : σ → String → Int),
        m.Respects view s.tree counter [limit, start, loop, round] body → ∀ s₀,
          (∀ ids out s₁, Runs s.tree m (countedRow limit start loop round body .nil) s₀ ids out s₁ →
            m.valuesAfter (view · counter) round s₀ ids <+: vs ∧
              (out ≠ .cut → out = .done ∧ m.valuesAfter (view · counter) round s₀ ids = vs)) ∧
          ((∀ s₂, ∃ ids out s', out ≠ .cut ∧ Runs s.tree m body s₂ ids out s') →
            ∃ ids s₁, Runs s.tree m (countedRow limit start loop round body .nil) s₀ ids .done
              s₁) := by
  obtain ⟨limit, start, loop, round, body, after, iterator, hcommands, hrow, hlines, hloop⟩ :=
    Session.exists_countedLoop rfl hpending hfindings hcounts hstep hexpand
  obtain ⟨vs, hvs⟩ := exists_series hstep b (a - step)
  have hlists : Lists a step (fun x => Ahead step b (x - step)) vs := by
    have hlists := hvs.lists
    rwa [Int.sub_add_cancel] at hlists
  refine ⟨limit, start, loop, round, body, after, vs, hcommands, hrow, hlines, hlists,
    hlists.of_dvd hstep, ?_⟩
  intro σ m view hm s₀
  exact ⟨fun ids out s₁ hrun => hloop.values_of_runs hm hvs hrun,
    fun hbody => hloop.exists_run hm hvs hbody s₀⟩

/-! ## Two loops -/

/-- The steps of the first loop miss its limit. The second loop counts down and hits it, and has a
loop in its body. -/
def twoLoops : List String :=
  ["for $i = 1 to 4 step 2", "$b = $i", "end", "for $k = 9 to 3 step -3", "for $j = 1 to 2",
    "$b = $k", "end", "end"]

set_option maxRecDepth 20000 in
theorem twoLoops_evaluates :
    (∀ id ∈ [1, 5],
      ((buildTree ⟨.builtin, .albionPrelude, [], none⟩ twoLoops).node id).findings none = []) ∧
    Session.isPendingShorthand ((buildTree ⟨.builtin, .albionPrelude, [], none⟩ twoLoops).node 1) =
      true ∧
    Session.isPendingShorthand ((buildTree ⟨.builtin, .albionPrelude, [], none⟩ twoLoops).node 5) =
      true ∧
    ((buildTree ⟨.builtin, .albionPrelude, [], none⟩ twoLoops).node 1).statement.CountsFrom
      "i" 1 4 2 ∧
    ((buildTree ⟨.builtin, .albionPrelude, [], none⟩ twoLoops).node 5).statement.CountsFrom "k"
      9 3 (-3) ∧
    ((Session.start (buildTree ⟨.builtin, .albionPrelude, [], none⟩ twoLoops)).expand
        ⟨.builtin, .albionPrelude, [], none⟩).toOption.any (fun s =>
      s.tree.forest = .leaves [1, 12, 13] ++ .node 14 (.leaves [15, 2, 4, 3])
      (.leaves [5, 16, 17] ++
        .node 18 (.leaves [19, 6, 20, 21] ++ .node 22 (.leaves [23, 7, 9, 8]) (.leaves [11, 10]))
          .nil) ∧
      [2, 4, 3].map s.tree.part = [.plain, .jump, .close] ∧
      [2, 4, 3].map (fun id => (s.node id).statement.assigned?.map Token.value) =
        [some "b", none, none] ∧
      "b" ∈ (s.node 2).statement.vars.map Token.value) = true := by
  rw [Grammar.builtin_eq]
  decide +kernel

/-- The body of the first loop neither writes its counter nor leaves it. -/
theorem twoLoops_respects {t : Tree} (hparts : [2, 4, 3].map t.part = [.plain, .jump, .close])
    (hassigned : [2, 4, 3].map (fun id => (t.node id).statement.assigned?.map Token.value) =
      [some "b", none, none])
    (hvars : "b" ∈ (t.node 2).statement.vars.map Token.value) (commands : List NodeId) :
    t.arithmetic.Respects (fun store => store) t "i" commands (.leaves [2, 4, 3]) := by
  simp only [List.map_cons, List.map_nil, List.cons.injEq, Option.map_eq_none_iff,
    and_true] at hparts hassigned
  obtain ⟨hb, hjump, hclose⟩ := hassigned
  have hwrites : ∀ id ∈ [2, 4, 3], ∀ v, (t.node id).statement.assigned? = some v → id = 2 ∧
      v.value = "b" := by
    intro id hid v hv
    simp only [List.mem_cons, List.not_mem_nil, or_false] at hid
    rcases hid with rfl | rfl | rfl
    · rw [hv] at hb
      exact ⟨rfl, Option.some.inj hb⟩
    · cases hv.symm.trans hjump
    · cases hv.symm.trans hclose
  refine ⟨fun _ _ _ => ⟨rfl, rfl⟩, fun id hid store => ?_, fun id hid name hname store => ?_,
    fun store ids store' hrun => ?_⟩
  · refine Tree.arithmetic_act_of_ne (fun v hv => ?_) store
    rw [((hwrites id hid v hv).2)]
    decide
  · refine Tree.arithmetic_act_of_ne (fun v hv => ?_) store
    obtain ⟨rfl, hvalue⟩ := hwrites id hid v hv
    obtain ⟨w, hw, hwb⟩ := List.mem_map.mp hvars
    rw [hvalue, ← hwb]
    exact hname w hw
  · obtain ⟨id, hid, hleave⟩ := hrun.exists_leave
    rw [Forest.ids_leaves] at hid
    simp only [List.mem_cons, List.not_mem_nil, or_false] at hid
    rcases hid with rfl | rfl | rfl <;> simp_all

theorem twoLoops_expands :
    ∃ s, (Session.start (buildTree ⟨.builtin, .albionPrelude, [], none⟩ twoLoops)).expand
        ⟨.builtin, .albionPrelude, [], none⟩ = .ok s ∧
      (∃ after, s.tree.forest = .leaves [1, 12, 13] ++ .node 14 (.leaves [15, 2, 4, 3]) after ∧
        s.tree.forest.ids.Nodup) ∧
      [2, 4, 3].map s.tree.part = [.plain, .jump, .close] ∧
      ∀ commands, s.tree.arithmetic.Respects (fun store => store) s.tree "i" commands
        (.leaves [2, 4, 3]) := by
  obtain ⟨s, hexpand, htests⟩ := exists_ok_of_any twoLoops_evaluates.2.2.2.2.2
  obtain ⟨hforest, hparts, hassigned, hvars⟩ := of_decide_eq_true htests
  exact ⟨s, hexpand, ⟨_, hforest, by rw [hforest]; decide⟩, hparts,
    twoLoops_respects hparts hassigned hvars⟩

/-- The first loop runs its body for `5`, which is past its limit. -/
theorem unevenLoop_overshoots : ∃ s limit start loop round body after,
      (Session.start (buildTree ⟨.builtin, .albionPrelude, [], none⟩ twoLoops)).expand
        ⟨.builtin, .albionPrelude, [], none⟩ = .ok s ∧
      ((buildTree ⟨.builtin, .albionPrelude, [], none⟩ twoLoops).node 1).statement.CountsFrom
        "i" 1 4 2 ∧
      s.tree.preorder.filter (s.isFrom 1) = [limit, start, loop, round] ∧
      s.tree.forest.Has 1 .nil (countedRow limit start loop round body after) ∧
      s.tree.arithmetic.Respects (fun store => store) s.tree "i" [limit, start, loop, round] body ∧
      (∃ ids store, Runs s.tree s.tree.arithmetic (countedRow limit start loop round body .nil)
        (fun _ => 0) ids .done store ∧
        s.tree.arithmetic.valuesAfter (fun store => store "i") round (fun _ => 0) ids = [1, 3, 5]) ∧
      ¬Lists 1 2 (fun x => ¬Ahead 2 x 4) [1, 3, 5] := by
  obtain ⟨hfindings, hpending, -, hcounts, -⟩ := twoLoops_evaluates
  obtain ⟨s, hexpand, ⟨rest, hforest, hnodup⟩, hparts, hrespects⟩ := twoLoops_expands
  obtain ⟨limit, start, loop, round, body, after, iterator, hcommands, hrow, -, hloop⟩ :=
    Session.exists_countedLoop (e := ⟨.builtin, .albionPrelude, [], none⟩) rfl hpending
      (hfindings 1 (by simp)) hcounts (by decide) hexpand
  -- The body is known from the shape of the tree.
  obtain rfl : body = .leaves [2, 4, 3] := by
    rw [hforest] at hrow hnodup
    obtain ⟨-, hsame⟩ := hrow.unique (.inl ⟨rfl, rfl, rfl⟩) hnodup
    obtain ⟨-, -, hsame⟩ := Forest.node.inj hsame
    obtain ⟨-, -, hsame⟩ := Forest.node.inj hsame
    obtain ⟨-, hsame, -⟩ := Forest.node.inj hsame
    exact (Forest.node.inj hsame).2.2
  have hvs : Series 2 4 (1 - 2) [1, 3, 5] :=
    .next (by decide) (.next (by decide) (.next (by decide) (.ended (by decide))))
  have hends : ∀ store, ∃ ids out store', out ≠ .cut ∧
      Runs s.tree s.tree.arithmetic (.leaves [2, 4, 3]) store ids out store' := by
    intro store
    simp only [List.map_cons, List.map_nil, List.cons.injEq, and_true] at hparts
    obtain ⟨hplain, hjump, hclose⟩ := hparts
    exact ⟨_, .done, _, by decide, .plain (by rw [hplain]; rfl)
      (.silent (by rw [hjump]; rfl) (.silent (by rw [hclose]; rfl) .done))⟩
  obtain ⟨ids, store, hrun⟩ := hloop.exists_run (hrespects _) hvs hends fun _ => 0
  refine ⟨s, limit, start, loop, round, _, after, hexpand, hcounts, hcommands, hrow, hrespects _,
    ⟨ids, store, hrun, ((hloop.values_of_runs (hrespects _) hvs hrun).2 (by decide)).2⟩,
    fun hlists => ?_⟩
  exact ((hlists 2 5).mp rfl).2 (by decide)

/-- The second loop gets to its body with the values `9`, `6` and `3`. -/
theorem descendingLoop_visits : ∃ s limit start loop round body after,
      (Session.start (buildTree ⟨.builtin, .albionPrelude, [], none⟩ twoLoops)).expand
        ⟨.builtin, .albionPrelude, [], none⟩ = .ok s ∧
      s.tree.preorder.filter (s.isFrom 5) = [limit, start, loop, round] ∧
      s.tree.forest.Has 5 .nil (countedRow limit start loop round body after) ∧
      Lists 9 (-3) (fun x => ¬Ahead (-3) x 3) [9, 6, 3] ∧
      ∀ {σ : Type} (m : Meaning NodeId σ) (view : σ → String → Int),
        m.Respects view s.tree "k" [limit, start, loop, round] body → ∀ s₀ ids s₁,
          Runs s.tree m (countedRow limit start loop round body .nil) s₀ ids .done s₁ →
            m.valuesAfter (view · "k") round s₀ ids = [9, 6, 3] := by
  obtain ⟨hfindings, -, hpending, -, hcounts, -⟩ := twoLoops_evaluates
  obtain ⟨s, hexpand, -⟩ := twoLoops_expands
  obtain ⟨limit, start, loop, round, body, after, vs, hcommands, hrow, -, hlists, hhits, hruns⟩ :=
    counted_loop_visits .albionPrelude [] none twoLoops s 5 "k" 9 3 (-3) hpending
      (hfindings 5 (by simp)) hcounts (by decide) hexpand
  have hvs : Series (-3) 3 12 [9, 6, 3] :=
    .next (by decide) (.next (by decide) (.next (by decide) (.ended (by decide))))
  obtain rfl : vs = [9, 6, 3] := hlists.unique hvs.lists
  refine ⟨s, limit, start, loop, round, body, after, hexpand, hcommands, hrow,
    hhits (by decide), ?_⟩
  intro σ m view hm s₀ ids s₁ hrun
  exact (((hruns m view hm s₀).1 ids .done s₁ hrun).2 (by decide)).2

end GameScript
