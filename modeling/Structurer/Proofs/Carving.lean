/-
**Carving a graph up cannot be seen.**

A graph that no rule applies to is carved up: its start is replaced by one node, or its end is solved by
itself, or it is split at a separator.  Each way turns edges into code that parks the stack and jumps
back to a loop, and two of them solve the rest of the graph while that loop is open.  Under strict
references nobody can tell what comes of it from the graph as it was given.
-/

import Structurer.Proofs.Checked
import Structurer.Proofs.Structuring

namespace Structurer

open Engine Machine Chart

variable {ctx ctx' : Context} {g g' : Graph} {n : Node}

namespace Graph

/-- A graph that the reduction of a graph got stuck with, as it was left or numbered anew. -/
def IsStuck (g : Graph) : Prop :=
  ∃ g₀ ctx₀ r changed ctx₁, g₀.Checked ctx₀ ∧ Yields (reduce g₀) ctx₀ (.stuck r changed) ctx₁ ∧
    (g = r ∨ g = r.renumber)

theorem IsStuck.forked (h : g.IsStuck) : g.chart.Forked := by
  obtain ⟨g₀, ctx₀, r, changed, ctx₁, hchecked, hy, hr⟩ := h
  obtain ⟨_, _, hy', hended⟩ := reduce_works hchecked.fine (hchecked.sound (False.elim : False → _))
  obtain ⟨rfl, rfl⟩ := hy'.unique hy
  have hnone := trivialBranch?_of_idle hended.2
  rcases hr with rfl | rfl
  · exact fun _ _ hb => hended.1.sound.forked hnone hb
  · rw [(same_renumber r).1.chart]
    exact fun _ _ hb => hended.1.sound.forked hnone hb

/-- Nobody can tell a way to run from the graph, from any stack that its entry takes and any values of
the variables. -/
def BehavesLike (ctx : Context) (g : Graph) (run : World → State → Option Result) : Prop :=
  ∀ {entry s}, g.get? g.entry = some entry → HasTypes s.stack entry.inputStack → Holds ctx.locals s →
    SameBehaviour ctx.signature.results.length (fun w => g.run w g.entry s) fun w => run w s

end Graph

/-- **A graph whose start was carved out behaves as the graph it came from.** -/
theorem Shortened.behavesLike (h : Shortened True ctx g ctx' g') (hs : g.Sound ctx True)
    (hstrict : ctx.settings.strictReferences = true)
    (hheedless : g.chart.Heedless ctx.locals ctx.locals.IsSlot) :
    g.BehavesLike ctx fun w s => g'.run w g'.entry s := by
  intro entry s hentry ht hholds
  have hb := Graph.block?_of_get? hentry
  have hheedless' : g.chart.Heedless ctx.locals ctx'.locals.IsSlot := hheedless.of_known fun id var hid =>
    ⟨h.grows.locals.old hid, h.grows.locals.isSlot⟩
  have hgood : Good (ctx.regime True) g.chart (g.entry, s.restrict ctx.locals) :=
    (filled_restrict (R := ctx.regime True) (K := ctx'.locals.IsSlot) hb ht hholds).good
  refine sameBehaviour_of_refines (R := ctx.regime True) hs.typed hs.closed hheedless' hb ht hholds
    fun w => ?_
  have himproves := h.improves trivial hstrict _ ctx'.locals.slotsAre_isSlot w _ s hgood
    (le_forget.trans le_forget)
  exact himproves.le_trans (walk_remembers le_forget)

theorem Solves.behavesLike (h : Solves True ctx g n ctx') (hs : g.Sound ctx True)
    (hstrict : ctx.settings.strictReferences = true) (hsize : g.size ≤ 2 ^ 31)
    (hheedless : g.chart.Heedless ctx.locals ctx.locals.IsSlot) :
    g.BehavesLike ctx fun w s => exec w n.body s := fun hentry ht hholds =>
  (h.faithful hs hstrict hsize hheedless (Graph.block?_of_get? hentry) ht hholds).1

theorem solveBelow_of_deep {plain : Prop} {size : Nat} {solver : Graph → EngineM Node}
    (h : ∀ part, part.size < size → ∃ depth, part.size < depth ∧ solver part = solveWithin depth part) :
    SolveBelow plain size solver solver := by
  intro ctx part hlt hf hs
  obtain ⟨depth, hdepth, heq⟩ := h part hlt
  rw [heq]
  exact solveWithin_works hf hs hdepth hdepth

/-- **Carving a graph up keeps its behaviour.**  A reduction got stuck with the graph, which has passed
its check under strict references.  No zero in its code has the negative sign, and no block looks at
what others left in slots.  Then none of the three ways to carve it up fails.  If the start is carved
out, nobody can tell the graph that is left behind from the graph; if the end is carved out, or the graph
is split, nobody can tell the code from it, provided that integers of 32 bits can number its nodes.  The
rest may be solved with any bound that is above its size. -/
theorem carving_sameBehaviour {solver : Graph → EngineM Node} (checked : g.Checked ctx)
    (stuck : g.IsStuck) (strict : ctx.settings.strictReferences = true)
    (plain : ∀ e ∈ g.nodes, Body.Plain e.2.body)
    (heedless : g.chart.Heedless ctx.locals ctx.locals.IsSlot)
    (deep : ∀ part, part.size < g.size →
      ∃ depth, part.size < depth ∧ solver part = solveWithin depth part) :
    (∃ r ctx', Yields (extractStart g) ctx r ctx' ∧
      ∀ g', r = some g' → g.BehavesLike ctx fun w s => g'.run w g'.entry s) ∧
    (∃ r ctx', Yields (extractFinish solver g) ctx r ctx' ∧
      ∀ n, r = some n → g.size ≤ 2 ^ 31 → g.BehavesLike ctx fun w s => exec w n.body s) ∧
    ∃ r ctx', Yields (splitRegions solver g) ctx r ctx' ∧
      ∀ n, r = some n → g.size ≤ 2 ^ 31 → g.BehavesLike ctx fun w s => exec w n.body s := by
  have hs : g.Sound ctx True := checked.sound fun _ => plain
  have hbelow : SolveBelow True g.size solver solver := solveBelow_of_deep deep
  refine ⟨?_, ?_, ?_⟩
  -- the start leads to a graph, the end and the halves lead to one node
  · obtain ⟨r, ctx', hy, _, hshort⟩ := extractStart_works checked.fine hs stuck.forked
    exact ⟨r, ctx', hy, fun g' hr => (hshort g' hr).behavesLike hs strict heedless⟩
  · obtain ⟨r, ctx', hy, _, hsolves⟩ :=
      (extractFinish_works checked.fine hs stuck.forked hbelow).left
    exact ⟨r, ctx', hy, fun n hr size => (hsolves n hr).behavesLike hs strict size heedless⟩
  · obtain ⟨r, ctx', hy, _, hsolves⟩ := (splitRegions_works checked.fine hs hbelow).left
    exact ⟨r, ctx', hy, fun n hr size => (hsolves n hr).behavesLike hs strict size heedless⟩

def windingGraph : Graph :=
  let ask (name : String) (ifTrue ifFalse : Nat) : Node :=
    { Node.new [.call name [.i32] [.i32, .i32]] [.i32] [.i32] with exit := .branch ⟨ifTrue⟩ ⟨ifFalse⟩ }
  let g := (Graph.empty.addNode (ask "a" 1 2)).2
  let g := (g.addNode (ask "b" 2 3)).2
  let g := (g.addNode { Node.new [.call "c" [.i32] [.i32]] [.i32] [.i32] with exit := .seq ⟨3⟩ }).2
  let g := (g.addNode (ask "d" 4 5)).2
  let g := (g.addNode (ask "e" 5 6)).2
  let g := (g.addNode (ask "f" 4 6)).2
  (g.addNode { Node.new [.ret] [.i32] [] with exit := .ret }).2.recalculateInputs

theorem carving_sameBehaviour_windingGraph :
    ∃ ctx, ctx.settings.strictReferences = true ∧ windingGraph.Checked ctx ∧ windingGraph.IsStuck ∧
      (∃ g' ctx', Yields (extractStart windingGraph) ctx (some g') ctx' ∧
        windingGraph.BehavesLike ctx fun w s => g'.run w g'.entry s) ∧
      (∃ n ctx', Yields (extractFinish solve windingGraph) ctx (some n) ctx' ∧
        windingGraph.BehavesLike ctx fun w s => exec w n.body s) ∧
      ∃ n ctx', Yields (splitRegions solve windingGraph) ctx (some n) ctx' ∧
        windingGraph.BehavesLike ctx fun w s => exec w n.body s := by
  let ctx := openContext { Settings.standard with strictReferences := true }
  have hchecked : windingGraph.Checked ctx :=
    ⟨⟨by decide, by decide⟩, by decide, by rfl, ⟨by simp [ctx, openContext, Context.initial],
      by simp [ctx, openContext, Context.initial]⟩, by decide⟩
  have hstuck : windingGraph.IsStuck :=
    ⟨windingGraph, ctx, windingGraph, false, ctx, hchecked, by rfl, .inl rfl⟩
  have hplain : ∀ e ∈ windingGraph.nodes, Body.Plain e.2.body := by
    refine List.forall_iff_forall_mem.1 ?_
    exact ⟨⟨trivial, trivial⟩, ⟨trivial, trivial⟩, ⟨trivial, trivial⟩, ⟨trivial, trivial⟩,
      ⟨trivial, trivial⟩, ⟨trivial, trivial⟩, trivial, trivial⟩
  have hheedless : windingGraph.chart.Heedless ctx.locals ctx.locals.IsSlot :=
    heedless_of_unknown (R := ctx.regime False) (hchecked.sound False.elim).typed
      (by simp [ctx, openContext, Context.initial, Locals.IsSlot])
  have hdeep : ∀ part : Graph, part.size < windingGraph.size →
      ∃ depth, part.size < depth ∧ solve part = solveWithin depth part :=
    fun part _ => ⟨part.size + 1, Nat.lt_succ_self _, rfl⟩
  obtain ⟨⟨start, _, hstart, hsame⟩, ⟨finish, _, hfinish, hsame'⟩, split, _, hsplit, hsame''⟩ :=
    carving_sameBehaviour hchecked hstuck rfl hplain hheedless hdeep
  have hsize : windingGraph.size ≤ 2 ^ 31 := by decide
  have hsome : comesTo (extractStart windingGraph) ctx (·.isSome) = true ∧
      comesTo (extractFinish solve windingGraph) ctx (·.isSome) = true ∧
      comesTo (splitRegions solve windingGraph) ctx (·.isSome) = true := by
    decide +kernel
  obtain ⟨_, _, hy, h⟩ := yields_of_comesTo hsome.1
  obtain ⟨rfl, rfl⟩ := hy.unique hstart
  obtain ⟨g', rfl⟩ := Option.isSome_iff_exists.1 h
  obtain ⟨_, _, hy', h'⟩ := yields_of_comesTo hsome.2.1
  obtain ⟨rfl, rfl⟩ := hy'.unique hfinish
  obtain ⟨n, rfl⟩ := Option.isSome_iff_exists.1 h'
  obtain ⟨_, _, hy'', h''⟩ := yields_of_comesTo hsome.2.2
  obtain ⟨rfl, rfl⟩ := hy''.unique hsplit
  obtain ⟨m, rfl⟩ := Option.isSome_iff_exists.1 h''
  exact ⟨ctx, rfl, hchecked, hstuck, ⟨g', _, hy, hsame g' rfl⟩, ⟨n, _, hy', hsame' n rfl hsize⟩,
    m, _, hy'', hsame'' m rfl hsize⟩

end Structurer
