/-
**A tree behaves as its graph.**

However control comes into the code of an acyclic graph, nobody who runs the code can tell it from the
walk over the graph.  The walk passes no node twice, and the end of the code is not reached.
-/

import Structurer.Proofs.Faithful
import Structurer.Proofs.Tree
import Structurer.Proofs.TreeCode

namespace Structurer

open Engine Iteration Machine Chart LinearTree

variable {extra : List (NodeId × LocalId)} {t : State}

theorem Machine.Meets.not_next {α : Type} {f : α → Option (α ⊕ Result)} {a : α} {y : Option Result}
    (h : Meets f (Through f fun _ _ => False) a y) (ha : Iteration.iter f a ≠ some .stuck) :
    (∀ t, y ≠ some (.next t)) ∧ y ≠ some .stuck := by
  cases h with
  | stuck y h => exact absurd h ha
  | forever h => exact ⟨by simp, by simp⟩
  | @comes a' r hs hr =>
    cases r with
    | jump | returned | trapped => exact ⟨by simp, by simp⟩
    | next => exact hr.elim
    | stuck =>
      obtain ⟨r₀, _, hrel⟩ := hr
      cases hrel

/-- How the code of a tree is started for the walk from a node with some values on its stack.  The values
are on the stack or in their slots, and of the extra flags only that of the node is set. -/
inductive TreeEntry.Starts (g : Graph) (extra : List (NodeId × LocalId)) (ls : Locals) :
    TreeEntry → NodeId → List Value → State → Prop
  | onStack {t : State} (clear : ∀ e ∈ extra, t.locals e.2 = some (.i32 0)) :
      Starts g extra ls .onStack g.entry t.stack t
  | unconditional {n : Node} {vs : List Value} {t : State} (node : g.get? g.entry = some n)
      (stack : t.stack = []) (parks : Parks ls n.inputStack vs t)
      (clear : ∀ e ∈ extra, t.locals e.2 = some (.i32 0)) :
      Starts g extra ls .unconditional g.entry vs t
  | flagsOnly {id : NodeId} {f : LocalId} {n : Node} {vs : List Value} {t : State}
      (node : g.get? id = some n) (stack : t.stack = []) (parks : Parks ls n.inputStack vs t)
      (flag : (id, f) ∈ extra) (set : IsSet t f)
      (others : ∀ e ∈ extra, e.2 ≠ f → t.locals e.2 = some (.i32 0)) :
      Starts g extra ls .flagsOnly id vs t

theorem LinearTree.calls_of_clear (h : ∀ e ∈ extra, t.locals e.2 = some (.i32 0)) :
    Calls extra t fun _ => False := by
  refine ⟨fun e he => ⟨0, h e he⟩, fun {y f} hf => ?_⟩
  rw [isSet_iff (h (y, f) (Graph.mem_of_lookup hf))]
  exact ⟨fun hne => hne rfl, False.elim⟩

theorem LinearTree.calls_of_set {id : NodeId} {f : LocalId} (hnd : (extra.map (·.1)).Nodup)
    (hnd' : (extra.map (·.2)).Nodup) (hmem : (id, f) ∈ extra) (hset : IsSet t f)
    (hothers : ∀ e ∈ extra, e.2 ≠ f → t.locals e.2 = some (.i32 0)) : Calls extra t (· = id) := by
  refine ⟨fun e he => ?_, fun {y f'} hf' => ⟨fun hset' => ?_, ?_⟩⟩
  · by_cases hef : e.2 = f
    · obtain ⟨c, hc, _⟩ := hset
      exact ⟨c, by rw [hef, hc]⟩
    · exact ⟨0, hothers e he hef⟩
  · have hmem' := Graph.mem_of_lookup hf'
    have hff : f' = f := by
      by_contra hne
      rw [isSet_iff (hothers (y, f') hmem' hne)] at hset'
      exact hset' rfl
    exact congrArg Prod.fst (List.inj_on_of_nodup_map hnd' hmem' hmem hff)
  · rintro rfl
    rw [(Graph.lookup_eq_some_iff_mem hnd).2 hmem] at hf'
    cases hf'
    exact hset

theorem Graph.strict_typed {g : Graph} {c : Checker} (hg : g.Tidy)
    (hedges : ∀ {id n out m}, g.get? id = some n → out ∈ n.outputs → g.get? out = some m →
      n.outputStack = m.inputStack)
    (hnodes : ∀ e ∈ g.nodes, { c with strict := true }.checkNode e.2 = .ok ()) :
    g.chart.Typed ⟨{ c with strict := true }, c.frames, False⟩ where
  blocks := by
    intro id b hb
    obtain ⟨n, hn, rfl⟩ := get?_of_block? hb
    exact checkNode_eq_ok_iff_typed.1 (hnodes (id, n) ((get?_eq_some_iff hg.nodup).1 hn))
  edges := by
    intro id b out b' hb hout hb'
    obtain ⟨n, hn, rfl⟩ := get?_of_block? hb
    obtain ⟨m, hm, rfl⟩ := get?_of_block? hb'
    have hsame : n.block.outputStack = m.block.inputStack := hedges hn hout hm
    rw [hsame]
    exact .refl _ _

theorem Chart.Topological.lt_of_steps₁ {G : Chart} {order : List NodeId} (h : G.Topological order)
    {K : LocalId → Prop} {w : World} {p q : NodeId × State} (hs : Steps₁ (G.step K w) p q) :
    order.idxOf p.1 < order.idxOf q.1 := by
  induction hs with
  | single hgo => exact h.before (targets_of_goes hgo)
  | tail _ hgo ih => exact Nat.lt_trans ih (h.before (targets_of_goes hgo))

namespace LinearTree

variable {R : Regime} {K : LocalId → Prop} {ctx ctx' : Context} {g : Graph} {entry : TreeEntry}
  {p : Plan} {T : Tree} {id : NodeId} {n : Node} {vs : List Value} {w : World}

theorem Sited.waits_restrict (S : Sited R K ctx g extra entry ctx' p T) (hn : g.get? id = some n)
    (hstack : t.stack = []) (hparks : Parks ctx'.locals n.inputStack vs t)
    (htypes : HasTypes vs n.inputStack) (hholds : Holds ctx'.locals t) :
    Waits R K g.chart ctx'.locals (id, (t.withStack vs).restrict R.checker.locals)
      (t.restrict ctx'.locals) where
  good := by
    refine ⟨⟨n.block, Graph.block?_of_get? hn, htypes⟩, Fitting.proper_restrict fun i var v hi hv => ?_⟩
    exact hholds.fitting i var v (S.layout.known.get hi) hv
  stack := hstack
  calls := rfl
  locals := by
    intro i v _ hv
    obtain ⟨hi, hv⟩ := State.forget_locals_eq_some_iff.1 hv
    obtain ⟨var, hvar⟩ := Option.ne_none_iff_exists'.1 hi
    rw [State.restrict_locals (S.layout.known.get hvar)]
    exact hv
  parks := by
    intro b hb
    rw [Graph.block?_of_get? hn] at hb
    cases hb
    refine hparks.of_slots fun i hi => ?_
    obtain ⟨slot, hslot, rfl⟩ := hi
    obtain ⟨var, hvar, _⟩ := S.layout.valid.typed slot hslot
    exact State.restrict_locals hvar
  proper := hholds.fitting.proper_restrict

theorem Sited.calls_restrict (S : Sited R K ctx g extra entry ctx' p T) {called : NodeId → Prop}
    (h : Calls extra t called) : Calls extra (t.restrict ctx'.locals) called := by
  have hsame : ∀ e ∈ extra, (t.restrict ctx'.locals).locals e.2 = t.locals e.2 := by
    intro e he
    obtain ⟨var, hvar, _⟩ := (S.extras e he).2.integer
    exact State.restrict_locals hvar
  refine ⟨fun e he => ?_, fun {y f} hf => ?_⟩
  · rw [hsame e he]
    exact h.number e he
  · rw [IsSet, hsame (y, f) (Graph.mem_of_lookup hf)]
    exact h.called hf

/-- **The code of a tree meets the walk, however it is started.** -/
theorem Sited.meets (S : Sited R K ctx g extra entry ctx' p T) (hnodes : (extra.map (·.1)).Nodup)
    (hflags : (extra.map (·.2)).Nodup) (hn : g.get? id = some n)
    (hstarts : entry.Starts g extra ctx'.locals id vs t) (htypes : HasTypes vs n.inputStack)
    (hholds : Holds ctx'.locals t) :
    g.chart.Tracks K w (fun _ _ => False)
      (id, (t.withStack vs).restrict R.checker.locals) (exec w (treeCode p T) (t.restrict ctx'.locals)) := by
  cases hstarts with
  | onStack clear =>
    refine S.meets_stacked ⟨⟨n.block, Graph.block?_of_get? hn, htypes⟩, ?_⟩ ?_
      hholds.fitting.proper_restrict (S.calls_restrict (calls_of_clear clear))
    · exact Fitting.proper_restrict fun i var v hi hv =>
        hholds.fitting i var v (S.layout.known.get hi) hv
    · refine le_forget.trans ⟨(List.append_nil _).symm, rfl, fun i v hv => ?_⟩
      obtain ⟨hi, hv⟩ := State.forget_locals_eq_some_iff.1 hv
      obtain ⟨var, hvar⟩ := Option.ne_none_iff_exists'.1 hi
      rw [State.restrict_locals (S.layout.known.get hvar)]
      exact hv
  | unconditional node stack parks clear =>
    exact S.meets_parked (S.waits_restrict node stack parks (by rw [hn] at node; cases node; exact htypes)
      hholds) (S.calls_restrict (calls_of_clear clear))
  | flagsOnly node stack parks flag set others =>
    rw [hn] at node
    cases node
    refine S.meets_flagged (S.waits_restrict hn stack parks htypes hholds) ?_
      (S.calls_restrict (calls_of_set hnodes hflags flag set others))
    rw [(Graph.lookup_eq_some_iff_mem hnodes).2 flag]
    simp

end LinearTree

/-- **A tree behaves as its graph.**  The links of the graph are consistent, the arms of its branches
differ, its nodes pass their checks under strict references, stacks are the same at both ends of every
edge, and no node looks at what others left in slots.  The extra flags are distinct integers that no node
mentions and that are no slots.  If the graph has been made a tree, then nobody can tell the code of the
tree from the walk, however the tree is entered; the end of the code is not reached, the walk passes no
node twice, and the code of no node is in the tree twice. -/
theorem solveLinearTree_sameBehaviour {ctx ctx' : Context} {g : Graph}
    {extra : List (NodeId × LocalId)} {entry : TreeEntry} {body : Body} (numbered : g.Numbered)
    (links : g.linkError? = none) (forked : g.chart.Forked)
    (edges : ∀ {id n out m}, g.get? id = some n → out ∈ n.outputs → g.get? out = some m →
      n.outputStack = m.inputStack)
    (checked : ∀ e ∈ g.nodes, { ctx.checker with strict := true }.checkNode e.2 = .ok ())
    (slots : ctx.locals.Valid) (heedless : g.chart.Heedless ctx.locals ctx.locals.IsSlot)
    (keys : (extra.map (·.1)).Nodup) (flags : (extra.map (·.2)).Nodup)
    (integers : ∀ e ∈ extra, ∃ v, ctx.locals.get? e.2 = some v ∧ v.valueType = .i32)
    (noSlots : ∀ e ∈ extra, ¬ ctx.locals.IsSlot e.2)
    (unused : ∀ e ∈ extra, ∀ m ∈ g.nodes, Body.UsesOnly (· ≠ e.2) m.2.body)
    (solved : Yields (solveLinearTree g extra entry) ctx (some body) ctx') {id : NodeId} {n : Node}
    {vs : List Value} {t : State} (node : g.get? id = some n)
    (starts : entry.Starts g extra ctx'.locals id vs t) (types : HasTypes vs n.inputStack)
    (holds : Holds ctx'.locals t) :
    SameBehaviour ctx.signature.results.length (fun w => g.run w id (t.withStack vs))
        (fun w => exec w body t) ∧
      (∃ code, body = code ++ [.unreachable] ∧ ∀ w t', exec w code t ≠ some (.next t')) ∧
      (∀ w p q, Steps (g.chart.step (fun _ => False) w) (id, t.withStack vs) p →
        Steps₁ (g.chart.step (fun _ => False) w) p q → p.1 ≠ q.1) ∧
      ∀ k, Body.tally k body ≤ Code.total k g.code := by
  have hne : g.nodes ≠ [] := List.ne_nil_of_mem (Graph.mem_of_lookup node)
  have hg : g.Tidy := numbered.tidy links
  have hC : g.chart.Closed := (hg.linkError?_eq_none_iff hne).1 links
  obtain ⟨r, ctx₁, hy, hgrows, hbuilt, _⟩ := solveLinearTree_spec slots hg hC forked extra entry
  obtain ⟨rfl, rfl⟩ := hy.unique solved
  obtain ⟨p, T, B, rfl⟩ := hbuilt body rfl
  let R : Regime := ⟨{ ctx.checker with strict := true }, ctx.checker.frames, False⟩
  have hT : g.chart.Typed R := Graph.strict_typed hg edges checked
  have L : Layout R ctx₁.locals.IsSlot g.chart ctx₁.locals :=
    ⟨hT, hC, rfl, hgrows.locals, hgrows.valid slots, ctx₁.locals.slotsAre_isSlot⟩
  have hH : g.chart.Heedless ctx.locals ctx₁.locals.IsSlot := heedless.of_known fun i var hi =>
    ⟨hgrows.locals.old hi, hgrows.locals.isSlot⟩
  have S : Sited R ctx₁.locals.IsSlot ctx g extra entry ctx₁ p T := by
    refine ⟨B, hg, forked, L, .refl _, fun e he => ?_⟩
    obtain ⟨v, hv, hv32⟩ := integers e he
    refine ⟨by rw [hv]; simp, ⟨v, hgrows.locals.get hv, hv32⟩, fun hslot => ?_, ?_⟩
    · exact noSlots e he (hgrows.locals.old hv hslot)
    · intro j b w s u hb _ _ hr
      obtain ⟨m, hm, rfl⟩ := Graph.get?_of_block? hb
      exact exec_spares w _ (unused e he (j, m) (Graph.mem_of_lookup hm)) hr
  have hb := Graph.block?_of_get? node
  have hknown : Holds ctx.locals (t.withStack vs) := fun i var hi => holds i var (hgrows.locals.get hi)
  have hsound : ∀ w, g.chart.walk ctx₁.locals.IsSlot w id ((t.withStack vs).restrict ctx.locals) ≠
      some .stuck := fun w => walk_ne_stuck (R := R) hT hC hH (filled_restrict (R := R) hb types hknown)
  have hmeets := fun w => S.meets (w := w) keys flags node starts types holds
  refine ⟨?_, ⟨treeCode p T, rfl, ?_⟩, ?_, ?_⟩
  · refine sameBehaviour_of_refines (R := R) hT hC hH hb types hknown fun w => ?_
    have hend : Meets (g.chart.step ctx₁.locals.IsSlot w) (Through (g.chart.step ctx₁.locals.IsSlot w)
        fun _ _ => False) (id, (t.withStack vs).restrict ctx.locals)
        (exec w (treeCode p T ++ [.unreachable]) (t.restrict ctx₁.locals)) := by
      rw [exec_append]
      exact (hmeets w).andThen fun _ _ h => h.elim
    exact hend.endsAs.refines.le_trans (exec_le w _ le_forget)
  · intro w t' hnext
    obtain ⟨hnot, hstuck⟩ := (hmeets w).not_next (hsound w)
    have hrefines : Refines Le (exec w (treeCode p T) (t.restrict ctx₁.locals))
        (exec w (treeCode p T) t) := exec_le w _ le_forget
    rw [hnext] at hrefines
    generalize exec w (treeCode p T) (t.restrict ctx₁.locals) = x at hrefines hnot hstuck
    cases hrefines with
    | stuck _ => exact hstuck rfl
    | ends hrel =>
        cases hrel with
        | next _ => exact hnot _ rfl
  · intro w p' q _ hsteps heq
    have hlt := B.order.lt_of_steps₁ hsteps
    rw [heq] at hlt
    exact Nat.lt_irrefl _ hlt
  · exact (solveLinearTree_gathers numbered extra entry _ _ _ solved _ rfl).tally

def forkedGraph : Graph :=
  let g := (Graph.empty.addNode { Node.new [.call "a" [.i32] [.i32, .i32]] [.i32] [.i32] with
    exit := .branch ⟨1⟩ ⟨2⟩ }).2
  let g := (g.addNode { Node.new [.call "b" [.i32] [.i32]] [.i32] [.i32] with exit := .seq ⟨3⟩ }).2
  let g := (g.addNode { Node.new [.call "c" [.i32] [.i32, .i32]] [.i32] [.i32] with
    exit := .branch ⟨3⟩ ⟨4⟩ }).2
  let g := (g.addNode { Node.new [.call "d" [.i32] [.i32]] [.i32] [.i32] with exit := .seq ⟨4⟩ }).2
  (g.addNode { Node.new [.ret] [.i32] [] with exit := .ret }).2.recalculateInputs

theorem solveLinearTree_sameBehaviour_forkedGraph :
    ∃ ctx ctx' body t, Yields (solveLinearTree forkedGraph [(⟨1⟩, ⟨1⟩), (⟨2⟩, ⟨2⟩)] .flagsOnly) ctx
        (some body) ctx' ∧
      TreeEntry.Starts forkedGraph [(⟨1⟩, ⟨1⟩), (⟨2⟩, ⟨2⟩)] ctx'.locals .flagsOnly ⟨2⟩ [.i32 7] t ∧
      SameBehaviour 1 (fun w => forkedGraph.run w ⟨2⟩ (t.withStack [.i32 7])) (fun w => exec w body t) := by
  let ctx : Context := { openContext .standard with
    locals := ⟨#[⟨"n", .i32⟩, ⟨"f", .i32⟩, ⟨"g", .i32⟩], []⟩ }
  let extra : List (NodeId × LocalId) := [(⟨1⟩, ⟨1⟩), (⟨2⟩, ⟨2⟩)]
  let t : State := ⟨[], fun id => some (.i32 (if id = ⟨1⟩ then 0 else 7)), []⟩
  have hnum : forkedGraph.Numbered := ⟨by decide, by decide⟩
  have hlinks : forkedGraph.linkError? = none := by decide
  have hstacks : ∀ e ∈ forkedGraph.nodes, e.2.inputStack = [.i32] ∧
      (e.2.outputs ≠ [] → e.2.outputStack = [.i32]) ∧ e.2.outputs.Nodup := by decide
  have hedges : ∀ {id n out m}, forkedGraph.get? id = some n → out ∈ n.outputs →
      forkedGraph.get? out = some m → n.outputStack = m.inputStack := by
    intro id n out m hn hout hm
    rw [(hstacks _ (Graph.mem_of_lookup hm)).1]
    exact (hstacks _ (Graph.mem_of_lookup hn)).2.1 (List.ne_nil_of_mem hout)
  have hforked : forkedGraph.chart.Forked := by
    intro id b hb
    obtain ⟨n, hn, rfl⟩ := Graph.get?_of_block? hb
    exact (hstacks _ (Graph.mem_of_lookup hn)).2.2
  have hbodies : ∀ e ∈ forkedGraph.nodes, { ctx.checker with strict := true }.checkNode e.2 = .ok () ∧
      ∀ P, Body.UsesOnly P e.2.body := by
    intro e he
    rcases List.mem_cons.1 he with rfl | he
    · exact ⟨rfl, fun _ => ⟨trivial, trivial⟩⟩
    rcases List.mem_cons.1 he with rfl | he
    · exact ⟨rfl, fun _ => ⟨trivial, trivial⟩⟩
    rcases List.mem_cons.1 he with rfl | he
    · exact ⟨rfl, fun _ => ⟨trivial, trivial⟩⟩
    rcases List.mem_cons.1 he with rfl | he
    · exact ⟨rfl, fun _ => ⟨trivial, trivial⟩⟩
    rw [List.mem_singleton.1 he]
    exact ⟨rfl, fun _ => ⟨trivial, trivial⟩⟩
  have hslots : ctx.locals.Valid := ⟨by simp [ctx], by simp [ctx]⟩
  have hheedless : forkedGraph.chart.Heedless ctx.locals ctx.locals.IsSlot :=
    heedless_of_unknown (Graph.strict_typed (hnum.tidy hlinks) hedges fun e he => (hbodies e he).1)
      (by simp [ctx, Locals.IsSlot])
  have hrun : comesTo (do
      let r ← solveLinearTree forkedGraph extra .flagsOnly
      return (r, (← get).locals)) ctx (fun e => e.1.isSome &&
        (e.2.slot? 0 .i32).any (· ≠ ⟨1⟩) && e.2.entries.all (·.valueType = .i32)) = true := by
    decide +kernel
  obtain ⟨_, ctx₂, hyields, htest⟩ := yields_of_comesTo hrun
  obtain ⟨r, ctx', hr, hrest⟩ := yields_bind.1 hyields
  obtain ⟨c, ctx₁, hget, hpure⟩ := yields_bind.1 hrest
  obtain ⟨rfl, rfl⟩ := yields_get.1 hget
  obtain ⟨rfl, _⟩ := yields_pure.1 hpure
  simp only [Bool.and_eq_true, Option.isSome_iff_exists, Option.any_eq_true, Array.all_eq_true,
    decide_eq_true_eq] at htest
  obtain ⟨⟨⟨body, rfl⟩, slot, hslot, hne⟩, hints⟩ := htest
  have hholds : Holds ctx'.locals t := by
    intro id var hid
    refine ⟨_, rfl, ?_⟩
    obtain ⟨hlt, rfl⟩ := Array.getElem?_eq_some_iff.1 hid
    rw [hints id.index hlt]
    rfl
  have hstarts : TreeEntry.Starts forkedGraph extra ctx'.locals .flagsOnly ⟨2⟩ [.i32 7] t := by
    refine .flagsOnly (f := ⟨2⟩) rfl rfl ⟨[slot], .cons hslot .nil, .cons ?_ .nil⟩ (by simp [extra])
      ⟨7, rfl, by decide⟩ ?_
    · show some (Value.i32 (if slot = ⟨1⟩ then 0 else 7)) = _
      rw [if_neg hne]
    · intro e he hef
      simp only [extra, List.mem_cons, List.not_mem_nil, or_false] at he
      rcases he with rfl | rfl
      · rfl
      · exact absurd rfl hef
  have htypes : HasTypes [.i32 7] [.i32] := .singleton rfl
  exact ⟨ctx, ctx', body, t, hr, hstarts, (solveLinearTree_sameBehaviour hnum hlinks hforked hedges
    (fun e he => (hbodies e he).1) hslots hheedless (by decide) (by decide) (by decide)
    (by simp [ctx, Locals.IsSlot]) (fun _ _ m hm => (hbodies m hm).2 _) hr rfl hstarts htypes
    hholds).1⟩

end Structurer
