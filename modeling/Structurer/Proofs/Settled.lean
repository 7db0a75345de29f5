/-
**Graphs that no rule applies to.**

A reduction that does not solve its graph leaves one that is as small as the rules can make it: a second
reduction changes nothing, all nodes can be reached, and there is no place left that one of the simple
rules is for.  Each search for such a place goes through the whole graph before it gives up, so a rule
that does not apply says something about every node.
-/

import Structurer.Proofs.Shrinking

namespace Structurer

open Engine Fallible List

variable {ctx ctx' : Context} {g : Graph} {id next : NodeId} {n : Node} {arm : Arm}

/-- Graphs that the simple rules have nothing to do with. -/
structure Graph.Settled (g : Graph) : Prop where
  size : 2 ≤ g.size
  reached : ∀ id ∈ g.ids, Relation.ReflTransGen g.chart.Targets g.entry id
  /-- The arms of a branch lead to different nodes. -/
  forked : ∀ {id n ifTrue ifFalse}, g.get? id = some n → n.exit = .branch ifTrue ifFalse →
    ifTrue ≠ ifFalse
  /-- No node is its own successor. -/
  onward : ∀ id, ¬ g.chart.Targets id id
  /-- A node that always goes on to another one does something. -/
  busy : ∀ {id n next}, g.get? id = some n → n.exit = .seq next → n.body.hasNoCode = false
  /-- A node that always goes on to another one is not the only one that does, unless it leads to the
  entry. -/
  joined : ∀ {id n next}, g.get? id = some n → n.exit = .seq next → next ≠ g.entry →
    ∃ p, p ≠ id ∧ g.chart.Targets p next

/-! ### Searches that find nothing -/

namespace Reduce

theorem eq_none_of_idle {rule : Graph → Except Fault (Option Graph)} {name : String}
    (h : Rule.Idle ⟨name, fun g => rule g⟩ g) : rule g = .ok none := by
  obtain ⟨ctx, ctx', hy⟩ := h
  exact (yields_lift.1 hy).1

section

variable (h : ∀ rule ∈ rules, rule.Idle g)

include h

theorem removeUnreachable_of_idle : ∃ g', g.removeUnreachable = .ok ([], g') := by
  obtain ⟨ctx, ctx', hy⟩ := h ⟨"remove unreachable nodes", removeUnreachable⟩ (by simp [rules])
  obtain ⟨⟨gone, g'⟩, ctx₁, hgone, hy⟩ := yields_bind.1 hy
  cases gone with
  | nil => exact ⟨g', (yields_lift.1 hgone).1⟩
  | cons a gone =>
    obtain ⟨_, _, _, hy⟩ := yields_bind.1 hy
    cases (yields_pure.1 hy).1

theorem emptyNode?_of_idle : emptyNode? g = none := by
  have hnone : bypassEmptyNode g = .ok none :=
    eq_none_of_idle (h ⟨"bypass empty nodes", fun g => bypassEmptyNode g⟩ (by simp [rules]))
  cases he : emptyNode? g with
  | none => rfl
  | some e =>
    rw [bypassEmptyNode, he] at hnone
    obtain ⟨_, _, h⟩ := bind_eq_ok_iff.1 hnone
    cases h

theorem sequence?_of_idle : sequence? g = .ok none := by
  have hnone : mergeSequence g = .ok none :=
    eq_none_of_idle (h ⟨"merge sequences", fun g => mergeSequence g⟩ (by simp [rules]))
  obtain ⟨r, hr, hnone⟩ := bind_eq_ok_iff.1 hnone
  cases r with
  | none => exact hr
  | some e =>
    obtain ⟨_, _, hnone⟩ := bind_eq_ok_iff.1 hnone
    obtain ⟨_, _, hnone⟩ := bind_eq_ok_iff.1 hnone
    cases hnone

theorem endless?_of_idle : endless? g = none := by
  obtain ⟨ctx, ctx', hy⟩ := h ⟨"make endless loops", makeEndlessLoop⟩ (by simp [rules])
  cases he : endless? g with
  | none => rfl
  | some id =>
    simp only [makeEndlessLoop, he, yields_bind, yields_pure] at hy
    obtain ⟨_, _, _, _, _, _, h, _⟩ := hy
    cases h

theorem while?_of_idle : while? g = .ok none := by
  obtain ⟨ctx, ctx', hy⟩ := h ⟨"make while loops", makeWhileLoop⟩ (by simp [rules])
  obtain ⟨r, ctx₁, hr, hy⟩ := yields_bind.1 hy
  cases r with
  | none => exact (yields_lift.1 hr).1
  | some e =>
    simp only [yields_bind, yields_pure] at hy
    obtain ⟨_, _, _, _, _, _, h, _⟩ := hy
    cases h

end

end Reduce

/-! ### Places that are not there -/

namespace Graph

open Reduce

theorem eq_false_of_firstArm? {t : NodeId → Arm → Except Fault Bool} (h : g.firstArm? t = .ok none)
    (hn : (id, n) ∈ g.nodes) (harm : arm ∈ n.exit.arms) : t id arm = .ok false := by
  obtain ⟨r, hr, hnone⟩ := bind_eq_ok_iff.1 (findSomeM?_eq_none_iff.1 h (id, n) hn)
  cases r with
  | none => exact eq_false_of_findM? hr arm harm
  | some _ => cases hnone

theorem Tidy.inputs_eq_singleton (hg : g.Tidy) {p : NodeId} (hn : g.get? id = some n)
    (h : ∀ q, g.chart.Targets q id ↔ q = p) : n.inputs.toList = [p] := by
  refine perm_singleton.1 ((perm_ext_iff_of_nodup n.inputs.nodup (nodup_singleton p)).2 ?_)
  intro q
  rw [mem_singleton, ← h]
  exact hg.mem_inputs_iff hn

theorem isSolved_iff (hn : g.get? g.entry = some n) :
    g.isSolved = true ↔ g.size = 1 ∧ n.exit = .ret := by
  rw [isSolved, hn]
  simp [Exit.isRet_iff]

namespace Consistent

theorem mem_nodes (hs : g.Consistent) (hn : g.get? id = some n) :
    (id, n) ∈ g.nodes := (get?_eq_some_iff hs.tidy.nodup).1 hn

section

variable (hs : g.Consistent) (h : ∀ rule ∈ rules, rule.Idle g)

include hs h

theorem reached_of_idle (hid : id ∈ g.ids) : Relation.ReflTransGen g.chart.Targets g.entry id := by
  obtain ⟨g', hg'⟩ := removeUnreachable_of_idle h
  obtain ⟨e, he, htrimmed⟩ := removeUnreachable_works hs.tidy hs.closed
  cases hg'.symm.trans he
  -- nothing has gone, so every node is among those that were kept
  exact htrimmed.path (htrimmed.kept (live_iff_mem.2 hid) not_mem_nil)

theorem forked_of_idle {t f : NodeId} (hn : g.get? id = some n) (he : n.exit = .branch t f) :
    t ≠ f := by
  have hnodup := hs.forked (trivialBranch?_of_idle h) (block?_of_get? hn)
  rw [Node.block_exit, he] at hnodup
  simpa [Exit.outputs] using hnodup

theorem other_eq_of_idle (hn : g.get? id = some n) (harm : arm ∈ n.exit.arms)
    (htarget : arm.target = id) : arm.other = id := by
  have hfalse : (pure (arm.target == id && arm.other != id) : Except Fault Bool) = .ok false :=
    eq_false_of_firstArm? (while?_of_idle h) (hs.mem_nodes hn) harm
  simpa [pure, Except.pure, htarget] using hfalse

theorem onward_of_idle (id : NodeId) : ¬ g.chart.Targets id id := by
  rintro ⟨b, hb, hout⟩
  obtain ⟨n, hn, rfl⟩ := get?_of_block? hb
  rw [Node.block_exit] at hout
  cases he : n.exit with
  | ret =>
    rw [he] at hout
    exact absurd hout not_mem_nil
  | seq next =>
    have hendless : ¬ (n.exit == .seq id) = true :=
      find?_eq_none.1 (Option.map_eq_none_iff.1 (endless?_of_idle h)) (id, n) (hs.mem_nodes hn)
    rw [he] at hout hendless
    cases mem_singleton.1 hout
    exact hendless (beq_self_eq_true _)
  | branch t f =>
    have hne := hs.forked_of_idle h hn he
    have hback : ∀ arm ∈ n.exit.arms, arm.target = id → arm.other = id := fun arm =>
      hs.other_eq_of_idle h hn
    rw [he] at hout hback
    rcases mem_pair.1 hout with rfl | rfl
    · exact hne (hback ⟨id, f, true⟩ (by simp [Exit.arms]) rfl).symm
    · exact hne (hback ⟨id, t, false⟩ (by simp [Exit.arms]) rfl)

theorem busy_of_idle (hn : g.get? id = some n) (he : n.exit = .seq next) :
    n.body.hasNoCode = false := by
  have hne : next ≠ id := by
    rintro rfl
    exact hs.onward_of_idle h next ((targets_iff_of_get? hn).2 (by simp [he, Exit.outputs]))
  have hnone := findSome?_eq_none_iff.1 (emptyNode?_of_idle h) (id, n) (hs.mem_nodes hn)
  dsimp only at hnone
  rw [he] at hnone
  simpa [hne] using hnone

theorem joined_of_idle (hn : g.get? id = some n) (he : n.exit = .seq next) (hentry : next ≠ g.entry) :
    ∃ p, p ≠ id ∧ g.chart.Targets p next := by
  by_contra hno
  have ht : g.chart.Targets id next := (targets_iff_of_get? hn).2 (by simp [he, Exit.outputs])
  have hne : id ≠ next := by
    rintro rfl
    exact hs.onward_of_idle h id ht
  have honly : ∀ p, g.chart.Targets p next ↔ p = id := fun p =>
    ⟨fun hp => by_contra fun hpne => hno ⟨p, hpne, hp⟩, fun hp => hp ▸ ht⟩
  -- so the search for a node with one predecessor has come past this one
  obtain ⟨b, hb⟩ := hs.closed.targets id next ht
  obtain ⟨m, hm, _⟩ := get?_of_block? hb
  have hnone := findSomeM?_eq_none_iff.1 (sequence?_of_idle h) (next, m) (hs.mem_nodes hm)
  have hseq : isSeq g id = .ok true := by
    rw [isSeq, node_eq_ok_iff.2 hn]
    show Except.ok n.exit.isSeq = _
    rw [he]
    rfl
  dsimp only at hnone
  rw [hs.tidy.inputs_eq_singleton hm honly] at hnone
  dsimp only at hnone
  rw [if_pos ⟨hentry, hne⟩, hseq] at hnone
  cases hnone

end

theorem nodes_of_isSolved (hs : g.Consistent) (h : g.isSolved = true) :
    ∃ n, g.nodes = [(g.entry, n)] ∧ n.exit = .ret := by
  obtain ⟨b, hb⟩ := hs.closed.entry
  obtain ⟨n, hn, _⟩ := get?_of_block? hb
  obtain ⟨hsize, hret⟩ := (isSolved_iff hn).1 h
  obtain ⟨e, he⟩ := length_eq_one_iff.1 hsize
  have hmem := hs.mem_nodes hn
  rw [he, mem_singleton] at hmem
  subst hmem
  exact ⟨n, he, hret⟩

theorem two_le_size (hs : g.Consistent) (h : ∀ rule ∈ rules, rule.Idle g) (hun : g.isSolved = false) :
    2 ≤ g.size := by
  obtain ⟨b, hb⟩ := hs.closed.entry
  obtain ⟨n, hn, _⟩ := get?_of_block? hb
  have hpos : 0 < g.size := length_pos_iff.2 hs.ne_nil
  by_contra hlt
  have hsize : g.size = 1 := by omega
  have hret : n.exit ≠ .ret := fun hret =>
    Bool.eq_false_iff.1 hun ((isSolved_iff hn).2 ⟨hsize, hret⟩)
  -- it leads somewhere, and there is nowhere else to lead to
  obtain ⟨out, hout⟩ : ∃ out, out ∈ n.exit.outputs := by
    cases he : n.exit with
    | ret => exact absurd he hret
    | seq next => exact ⟨next, .head _⟩
    | branch t f => exact ⟨t, .head _⟩
  have ht : g.chart.Targets g.entry out := (targets_iff_of_get? hn).2 hout
  obtain ⟨a, ha⟩ : ∃ a, g.ids = [a] := length_eq_one_iff.1 (by rw [ids, length_map]; exact hsize)
  have hsame : ∀ id, g.chart.Live id → id = a := by
    intro id hid
    have hid := live_iff_mem.1 hid
    rwa [ha, mem_singleton] at hid
  rw [hsame out (hs.closed.targets _ _ ht), ← hsame g.entry hs.closed.entry] at ht
  exact hs.onward_of_idle h g.entry ht

/-- **A graph is settled if no rule applies to it and it is not solved.** -/
theorem settled (hs : g.Consistent) (h : ∀ rule ∈ rules, rule.Idle g) (hun : g.isSolved = false) :
    g.Settled where
  size := hs.two_le_size h hun
  reached _ := hs.reached_of_idle h
  forked := hs.forked_of_idle h
  onward := hs.onward_of_idle h
  busy := hs.busy_of_idle h
  joined := hs.joined_of_idle h

end Consistent

end Graph

/-! ### Whole reductions -/

/-- **What a reduction leaves is solved or settled.**  The links of the graph are in order; nothing is asked
of its code or of the context.  The reduction comes to a result.  If it is a solved graph, that is one node
which leads nowhere, the entry.  If no rule applies any more, each of them leaves the context as it is when it
is tried once more, and so does a whole reduction. -/
theorem reduce_settles {g : Graph} (numbered : g.Numbered) (nonempty : g.nodes ≠ [])
    (linked : g.checkLinks = .ok ()) (ctx : Context) :
    ∃ r ctx', Yields (reduce g) ctx r ctx' ∧
      (∀ g', r = .solved g' → ∃ n, g'.nodes = [(g'.entry, n)] ∧ n.exit = .ret) ∧
      ∀ g' changed, r = .stuck g' changed →
        (∀ rule ∈ Reduce.rules, Yields (rule.apply g') ctx' none ctx') ∧
        Yields (reduce g') ctx' (.stuck g' false) ctx' ∧ g'.Settled := by
  have hs := numbered.consistent nonempty linked
  obtain ⟨r, ctx', hy, hstops⟩ := Reduce.invariant_consistent.reduce ctx hs
  refine ⟨r.1, ctx', Reduce.yields_reduce hy, ?_⟩
  cases hstops with
  | solved hs' _ hsolved =>
      refine ⟨fun g' hg' => ?_, nofun⟩
      cases hg'
      exact hs'.nodes_of_isSolved hsolved
  | stuck hs' _ hun hrests =>
      refine ⟨nofun, fun g' changed hg' => ?_⟩
      cases hg'
      exact ⟨hrests, Reduce.reduce_of_rests hrests hun,
        hs'.settled (fun rule hrule => (hrests rule hrule).idle) hun⟩
  | rejected _ _ _ => exact ⟨nofun, nofun⟩

def Reduction.isStuck : Reduction → Bool
  | stuck _ _ => true
  | _ => false

theorem reduce_settles_knottedGraph :
    ∃ g' changed ctx', knottedGraph.checkLinks = .ok () ∧
      Yields (reduce knottedGraph) (openContext .standard) (.stuck g' changed) ctx' ∧
      Yields (reduce g') ctx' (.stuck g' false) ctx' ∧ g'.size = 3 ∧ g'.Settled := by
  have hlinked : knottedGraph.checkLinks = .ok () := by rfl
  obtain ⟨r, ctx', hy, _, hstuck⟩ :=
    reduce_settles ⟨by decide, by decide⟩ (by decide) hlinked (openContext .standard)
  have hrun : comesTo (reduce knottedGraph) (openContext .standard)
      (fun r => r.isStuck && r.graph.size == 3) = true := by decide +kernel
  obtain ⟨r', ctx₁, hy', hr'⟩ := yields_of_comesTo hrun
  obtain ⟨rfl, rfl⟩ := hy.unique hy'
  obtain ⟨his, hsize⟩ := Bool.and_eq_true_iff.1 hr'
  cases r with
  | stuck g' changed =>
      obtain ⟨_, hagain, hsettled⟩ := hstuck g' changed rfl
      exact ⟨g', changed, ctx', hlinked, hy, hagain, beq_iff_eq.1 hsize, hsettled⟩
  | solved | rejected => cases his

end Structurer
