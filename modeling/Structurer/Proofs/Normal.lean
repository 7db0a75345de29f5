/-
**Graphs in a consistent state.**

Before a graph is structured its predecessors are rebuilt, nodes out of reach are dropped, and every node
that leads nowhere returns at its end.  Nobody who walks over the graph can tell: the walk never comes to
the nodes that are gone, and where a body ends in a node that leads nowhere, the method returns anyway.
-/

import Structurer.Proofs.Faithful
import Structurer.Proofs.Region

namespace Structurer

open Engine Machine Chart Iteration Fallible

/-! ### Blocks that return at their end -/

def Block.closed (b : Block) : Block :=
  if b.exit.isRet && Body.fallsThrough b.body then { b with body := b.body ++ [.ret] } else b

@[simp] theorem Block.closed_exit (b : Block) : b.closed.exit = b.exit := by
  unfold Block.closed
  split <;> rfl

@[simp] theorem Block.closed_inputStack (b : Block) : b.closed.inputStack = b.inputStack := by
  unfold Block.closed
  split <;> rfl

theorem Node.closed_inputs (n : Node) : n.closed.inputs = n.inputs := by
  unfold Node.closed
  split <;> rfl

theorem Node.block_closed (n : Node) : n.closed.block = n.block.closed := by
  unfold Node.closed Block.closed
  split <;> simp_all [Node.block]

theorem Block.closed_body (b : Block) :
    b.closed.body = b.body ∨ (b.exit = .ret ∧ b.closed.body = b.body ++ [.ret]) := by
  unfold Block.closed
  split
  next h => exact .inr ⟨Exit.isRet_iff.1 (Bool.and_eq_true_iff.1 h).1, rfl⟩
  next => exact .inl rfl

theorem Block.follow_closed (b : Block) (w : World) (s : State) :
    (exec w b.closed.body s).map (follow b.exit) = (exec w b.body s).map (follow b.exit) := by
  rcases b.closed_body with hbody | ⟨hexit, hbody⟩
  · rw [hbody]
  · have hret : ∀ t, exec w [.ret] t = some (.returned t) := by
      intro t
      simp [exec_singleton, execInstruction, simple]
    rw [hbody, hexit, exec_append]
    rcases exec w b.body s with _ | (t | t | t | t | _)
    · rfl
    · rw [andThen_next, hret]
      rfl
    all_goals rfl

theorem Block.plain_closed {b : Block} (h : Body.Plain b.body) : Body.Plain b.closed.body := by
  rcases b.closed_body with hbody | ⟨_, hbody⟩
  · rwa [hbody]
  · rw [hbody]
    exact Body.plain_append.2 ⟨h, trivial, trivial⟩

theorem Block.stuck_closed {b : Block} {w : World} {s : State}
    (h : exec w b.closed.body s = some .stuck) : exec w b.body s = some .stuck := by
  rcases b.closed_body with hbody | ⟨_, hbody⟩
  · rwa [hbody] at h
  · rw [hbody, exec_append] at h
    generalize exec w b.body s = r at h ⊢
    rcases r with _ | (t | t | t | t | _)
    · cases h
    · rw [andThen_next] at h
      simp [exec_singleton, execInstruction, simple] at h
    · cases h
    · cases h
    · cases h
    · rfl

/-! ### What normalizing does -/

theorem Graph.Tidy.closeReturns {g : Graph} (hg : g.Tidy) :
    g.closeReturns.Tidy ∧ g.closeReturns.entry = g.entry ∧ g.closeReturns.size = g.size ∧
      ∀ j, g.closeReturns.chart.block? j = (g.chart.block? j).map Block.closed := by
  have hget : ∀ j, g.closeReturns.get? j = (g.get? j).map Node.closed :=
    lookup_map_node g.nodes fun _ n => n.closed
  have hids : g.closeReturns.ids = g.ids := by
    simp [Graph.closeReturns, Graph.ids, Function.comp_def]
  have hblock : ∀ j, g.closeReturns.chart.block? j = (g.chart.block? j).map Block.closed := by
    intro j
    rw [Graph.chart_block?, Graph.chart_block?, hget, Option.map_map, Option.map_map]
    exact congrArg (fun f => (g.get? j).map f) (funext Node.block_closed)
  have hlive : ∀ j, g.closeReturns.chart.Live j ↔ g.chart.Live j := by
    intro j
    simp [Chart.Live, hblock]
  have htargets : ∀ p j, g.closeReturns.chart.Targets p j ↔ g.chart.Targets p j := by
    intro p j
    simp only [Chart.Targets, hblock, Option.map_eq_some_iff]
    constructor
    · rintro ⟨_, ⟨b, hb, rfl⟩, hout⟩
      exact ⟨b, hb, by rwa [Block.closed_exit] at hout⟩
    · rintro ⟨b, hb, hout⟩
      exact ⟨b.closed, ⟨b, hb, rfl⟩, by rwa [Block.closed_exit]⟩
  have hlists : ∀ j p, g.closeReturns.Lists j p ↔ g.Lists j p := by
    intro j p
    simp only [Graph.Lists, hget, Option.map_eq_some_iff]
    constructor
    · rintro ⟨_, ⟨n, hn, rfl⟩, hp⟩
      exact ⟨n, hn, by rwa [Node.closed_inputs] at hp⟩
    · rintro ⟨n, hn, hp⟩
      exact ⟨n.closed, ⟨n, hn, rfl⟩, by rwa [Node.closed_inputs]⟩
  refine ⟨⟨?_, ?_, fun j p => ?_⟩, rfl, ?_, hblock⟩
  · rw [hids]
    exact hg.nodup
  · rw [hids]
    exact hg.issued
  · rw [hlists, hg.exact, hlive, htargets]
  · rw [Graph.size_eq_length, hids, Graph.size_eq_length]

/-- A graph in a consistent state, and the graph it came from. -/
structure Normal (g g' : Graph) : Prop where
  entry : g'.entry = g.entry
  block : ∀ {id b}, g'.chart.block? id = some b → ∃ b₀, g.chart.block? id = some b₀ ∧ b = b₀.closed
  path : ∀ {id}, g'.chart.Live id → Relation.ReflTransGen g.chart.Targets g.entry id
  closed : g'.chart.Closed
  size : g'.size ≤ g.size

/-- **A graph runs as it does in a consistent state.** -/
theorem Normal.walk_eq {g g' : Graph} (h : Normal g g') (K : LocalId → Prop) (w : World) (s : State) :
    g.chart.walk K w g.entry s = g'.chart.walk K w g'.entry s := by
  -- the walk never leaves the nodes that are still there
  have hinv : ∀ p q : NodeId × State, g'.chart.Live p.1 → Goes (g'.chart.step K w) p q →
      g'.chart.Live q.1 := fun p q _ hgo => h.closed.targets _ _ (targets_of_goes hgo)
  rw [walk, walk, h.entry]
  refine iter_congr ?_ hinv (h.entry ▸ h.closed.entry)
  rintro ⟨id, t⟩ ⟨b, hb⟩
  obtain ⟨b₀, hb₀, rfl⟩ := h.block hb
  rw [step_of_block hb, step_of_block hb₀, Block.closed_exit, Block.follow_closed]

theorem Graph.ne_nil_of_removeUnreachable {g : Graph} {e : List NodeId × Graph}
    (h : g.removeUnreachable = .ok e) : g.nodes ≠ [] := by
  intro hnil
  obtain ⟨reached, hreached, _⟩ := bind_eq_ok_iff.1 h
  have hnone : g.get? g.entry = none := by simp [Graph.get?, hnil]
  simp [Graph.reachable, Graph.walk, Graph.node, hnone, bind, Except.bind] at hreached

/-- **A graph in a consistent state is sound, and the graph it came from runs as it does.** -/
theorem normalize_spec {plain : Prop} {g g' : Graph} {ctx ctx' : Context} (hg : g.Numbered)
    (hp : plain → ∀ e ∈ g.nodes, Body.Plain e.2.body) (h : Yields (normalize g) ctx g' ctx') :
    Normal g g' ∧ g'.Sound ctx' plain ∧ ctx.Grows ctx' ∧ ctx'.locals = ctx.locals := by
  obtain ⟨hlinks, gone, g₁, hgone, rfl, rfl, hcheck⟩ := yields_normalize.1 h
  obtain ⟨htidy, hchart, hids, _⟩ := Graph.tidy_recalculateInputs hg.nodup hg.issued
  have hne : g.recalculateInputs.nodes ≠ [] := Graph.ne_nil_of_removeUnreachable hgone
  have hC := (htidy.linkError?_eq_none_iff hne).1 hlinks
  obtain ⟨_, hworks, htrim⟩ := Graph.removeUnreachable_works htidy hC
  cases hworks.symm.trans hgone
  obtain ⟨htidy₁, hentry₁, hsize₁, hblock₁⟩ := htrim.tidy.closeReturns
  obtain ⟨hsame, _⟩ := Graph.same_renumber g₁.closeReturns
  have hsize : g₁.closeReturns.renumber.size = g₁.size := (Graph.size_renumber _).trans hsize₁
  have hne₁ : g₁.closeReturns.renumber.nodes ≠ [] := by
    intro hnil
    have hpos : 0 < g₁.size := by
      rw [Graph.size_eq_length]
      exact List.length_pos_of_mem (Graph.live_iff_mem.1 htrim.closed.entry)
    rw [← hsize, Graph.size, hnil] at hpos
    exact absurd hpos (Nat.lt_irrefl 0)
  have hsound : g₁.closeReturns.renumber.Sound (ctx.dropped gone) False :=
    .of_inspect ⟨htidy₁.renumber.nodup, htidy₁.renumber.issued⟩ hne₁ hcheck False.elim
  have hnormal : Normal g g₁.closeReturns.renumber := by
    refine ⟨?_, fun {id b} hb => ?_, ?_, hsound.closed, ?_⟩
    · rw [← Graph.chart_entry, hsame.chart, Graph.chart_entry, hentry₁]
      exact htrim.entry.trans (congrArg Chart.entry hchart)
    · rw [hsame.chart, hblock₁] at hb
      obtain ⟨b₀, hb₀, rfl⟩ := Option.map_eq_some_iff.1 hb
      exact ⟨b₀, hchart ▸ htrim.blocks hb₀, rfl⟩
    · rintro id ⟨b, hb⟩
      rw [hsame.chart, hblock₁] at hb
      obtain ⟨b₀, hb₀, _⟩ := Option.map_eq_some_iff.1 hb
      rw [← Graph.chart_entry, ← hchart]
      exact htrim.path ⟨b₀, hb₀⟩
    · have hsub : g₁.ids ⊆ g.recalculateInputs.ids := by
        intro id hid
        obtain ⟨b, hb⟩ := Graph.live_iff_mem.2 hid
        exact Graph.live_iff_mem.1 ⟨b, htrim.blocks hb⟩
      rw [hsize, Graph.size_eq_length g, ← hids, Graph.size_eq_length]
      exact (List.subperm_of_subset htrim.tidy.nodup hsub).length_le
  refine ⟨hnormal, ⟨hsound.toConsistent, hsound.typed.of_plain fun hz {id b} hb => ?_⟩, ?_, ?_⟩
  · obtain ⟨b₀, hb₀, rfl⟩ := hnormal.block hb
    obtain ⟨n, hn, rfl⟩ := Graph.get?_of_block? hb₀
    exact Block.plain_closed (hp hz (id, n) ((Graph.get?_eq_some_iff hg.nodup).1 hn))
  · unfold Context.dropped
    split
    · exact .refl _
    · exact Context.grows_logged _ _
  · unfold Context.dropped Context.logged
    split
    · rfl
    · split <;> rfl

end Structurer
