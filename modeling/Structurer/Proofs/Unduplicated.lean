/-
**Labels and calls of structured code.**

A method is brought into a consistent state, which drops what control cannot reach, and then its code is
moved into one body.  So the labels of the loops in that body are unambiguous, and the body calls nothing
more often than the code it comes from.
-/

import Mathlib.Data.List.Count
import Structurer.Proofs.SolvingCode

namespace Structurer

open Engine Fallible Code List Body

/-! ### Loops and calls in code -/

def Body.loops (b : Body) : List LoopLabel :=
  (marks b).filterMap fun m =>
    match m.landmark with
    | .loop l => some l
    | _ => none

def Landmark.isCall : Landmark → Bool
  | .call _ _ _ => true
  | _ => false

def Body.OnlyCalls (b : Body) : Prop := ∀ m ∈ marks b, m.landmark.isCall = true

instance (b : Body) : Decidable b.OnlyCalls := inferInstanceAs (Decidable (∀ m ∈ marks b, _))

theorem Body.OnlyCalls.scoped_of {b : Body} (h : b.OnlyCalls) (n : Nat) (around : List LoopLabel) :
    Scoped n around b := by
  intro m hm
  have hcall := h m hm
  unfold Mark.Scoped
  cases hk : m.landmark with
  | call => trivial
  | _ => simp [hk, Landmark.isCall] at hcall

theorem Body.OnlyCalls.tally_loop {b : Body} (h : b.OnlyCalls) (l : LoopLabel) :
    tally (.loop l) b = 0 := by
  rw [tally, countP_eq_zero]
  intro m hm hloop
  have hcall := h m hm
  rw [of_decide_eq_true hloop] at hcall
  cases hcall

theorem Body.Scoped.lt_of_mem_loops {n : Nat} {around : List LoopLabel} {b : Body} {l : LoopLabel}
    (h : Scoped n around b) (hl : l ∈ b.loops) : l.index < n := by
  obtain ⟨m, hm, hlabel⟩ := mem_filterMap.1 hl
  have hscoped := h m hm
  unfold Mark.Scoped at hscoped
  cases hk : m.landmark with
  | loop l' =>
    rw [hk] at hlabel hscoped
    cases hlabel
    exact hscoped.1
  | _ => simp [hk] at hlabel

theorem Body.count_loops (b : Body) (l : LoopLabel) : b.loops.count l = tally (.loop l) b := by
  rw [loops, tally]
  induction marks b with
  | nil => rfl
  | cons m ms ih =>
    rw [countP_cons, ← ih]
    cases hm : m.landmark with
    | loop l' =>
      rw [filterMap_cons_some (by rw [hm]), count_cons]
      simp
    | call => rw [filterMap_cons_none (by rw [hm])]; simp
    | jump => rw [filterMap_cons_none (by rw [hm])]; simp

theorem total_congr {k : Landmark} {l l' : List (NodeId × Body)}
    (h : List.Forall₂ (fun e e' => marks e'.2 = marks e.2) l l') : total k l' = total k l := by
  induction h with
  | nil => rfl
  | cons h _ ih => rw [total_cons, total_cons, ih, tally_congr h]

/-! ### Graphs in a consistent state -/

namespace Graph

variable {g g' : Graph}

theorem reachable_path {start : NodeId} {avoid : Option NodeId} {found : List NodeId}
    (h : g.reachable start avoid = .ok found) :
    ∀ id ∈ found, Relation.ReflTransGen g.chart.Targets start id := by
  refine walk_ensures (Q := Relation.ReflTransGen g.chart.Targets start) (fun id n hid hn => ?_) nofun
    (fun id hid => ?_) _ h
  · exact ⟨hid, fun j hj => hid.tail ((targets_iff_of_get? hn).2 hj)⟩
  · split at hid
    · cases hid
    · cases mem_singleton.1 hid
      exact .refl

end Graph

theorem code_closeReturns {g : Graph} (hg : g.Numbered) : g.closeReturns.Numbered ∧
    List.Forall₂ (fun e e' => marks e'.2 = marks e.2) g.code g.closeReturns.code := by
  have hids : g.closeReturns.ids = g.ids := by
    simp [Graph.closeReturns, Graph.ids, Function.comp_def]
  refine ⟨⟨hids ▸ hg.nodup, fun id hid => hg.issued id (hids ▸ hid)⟩, ?_⟩
  unfold Graph.code Graph.closeReturns
  rw [List.map_map, forall₂_map_left_iff, forall₂_map_right_iff, forall₂_same]
  intro e _
  show marks e.2.closed.body = marks e.2.body
  unfold Node.closed
  split <;> simp [marks_cons]

theorem normalize_code {g g' : Graph} {ctx ctx' : Context} (hg : g.Numbered)
    (hx : Yields (normalize g) ctx g' ctx') :
    g'.Numbered ∧ ∃ reached : List NodeId,
      (∀ id ∈ reached, Relation.ReflTransGen g.chart.Targets g.entry id) ∧
      List.Forall₂ (fun e e' => marks e'.2 = marks e.2) (g.code.filter (·.1 ∈ reached))
        g'.code := by
  obtain ⟨_, gone, g₁, hgone, rfl, _⟩ := yields_normalize.1 hx
  obtain ⟨reached, hreached, hcode, hnum⟩ := Graph.code_removeUnreachable hgone
  obtain ⟨_, hchart, _⟩ := Graph.tidy_recalculateInputs hg.nodup hg.issued
  have hsame := Graph.sameCode_recalculateInputs g
  have hpath := Graph.reachable_path hreached
  rw [hchart] at hpath
  rw [hsame.code] at hcode
  obtain ⟨hclosed, hmarks⟩ := code_closeReturns (hnum (hsame.numbered hg))
  have hrenumber := Graph.sameCode_renumber g₁.closeReturns
  refine ⟨hrenumber.numbered hclosed, reached, hpath, ?_⟩
  rw [hrenumber.code, ← hcode]
  exact hmarks

theorem structureGraph_rearranges {g : Graph} {n : Node} {ctx ctx' : Context} (hg : g.Numbered)
    (hx : Yields (structureGraph g) ctx n ctx') :
    ∃ (g' : Graph) (ctx₁ ctx₂ : Context), Yields (normalize g) ctx₁ g' ctx₂ ∧ ctx.Onward ctx₂ ∧
      ∀ id, Rearranged ctx₂ ctx' g'.code [(id, n.body)] := by
  obtain ⟨_, g', ctx₂, hnormal, hsolve, _⟩ := yields_structureGraph.1 hx
  have hlogged := (Work.emit (.structuring ctx.signature.display g.size)).onward
    (yields_emit.2 rfl : Yields _ ctx () _)
  refine ⟨g', _, ctx₂, hnormal, hlogged.trans ((Work.checks.normalize g).onward hnormal), fun id => ?_⟩
  exact solve_rearranges.rearranged (normalize_code hg hnormal).1 hsolve id

/-! ### Labels -/

theorem structureGraph_scoped {g : Graph} {n : Node} {ctx ctx' : Context} (hg : g.Numbered)
    (hnest : ctx.Nested) (hscoped : Scoped ctx.labels.issued ctx.labels.openLoops g.code)
    (h : Yields (structureGraph g) ctx n ctx') :
    Body.Scoped ctx'.labels.issued ctx.labels.openLoops n.body := by
  obtain ⟨g', ctx₁, ctx₂, hnorm, hon, hre⟩ := structureGraph_rearranges hg h
  obtain ⟨_, reached, _, hmarks⟩ := normalize_code hg hnorm
  have hscoped' : Scoped ctx₂.labels.issued ctx₂.labels.openLoops g'.code := by
    intro e he
    obtain ⟨e₀, he₀, hsame⟩ := exists_of_forall₂ hmarks.flip he
    rw [hon.openLoops]
    exact (hscoped e₀ (List.mem_filter.1 he₀).1).congr hsame |>.mono hon.issued fun _ => Iff.rfl
  have hafter := (hre g.entry).scopes (hon.nested hnest) hscoped' _ (List.mem_singleton_self _)
  rwa [hon.openLoops] at hafter

/-- **The labels of structured code are unambiguous.**  Every jump lies inside a loop of its label, no
loop lies inside a loop of its own label, and all loops have different labels if nodes may not be
copied. -/
theorem structureGraph_labels (g : Graph) (signature : Signature) (locals : Locals) (settings : Settings)
    (verbosity : Option LogLevel) (n : Node) (ctx' : Context) (hg : g.Numbered)
    (hcalls : ∀ e ∈ g.nodes, e.2.body.OnlyCalls)
    (h : Yields (structureGraph g) (.initial signature locals settings verbosity) n ctx') :
    (∀ m ∈ Body.marks n.body, ∀ l, m.landmark = .jump l → l ∈ m.around) ∧
    (∀ m ∈ Body.marks n.body, ∀ l, m.landmark = .loop l → l ∉ m.around) ∧
    (settings.allowDuplication = false → n.body.loops.Nodup) := by
  obtain ⟨g', ctx₁, ctx₂, hnorm, hon, hre⟩ := structureGraph_rearranges hg h
  obtain ⟨_, reached, _, hmarks⟩ := normalize_code hg hnorm
  have honly : ∀ e ∈ g'.code, e.2.OnlyCalls := by
    intro e he m hm
    obtain ⟨e₀, he₀, hsame⟩ := exists_of_forall₂ hmarks.flip he
    obtain ⟨e₁, he₁, rfl⟩ := List.mem_map.1 (List.mem_filter.1 he₀).1
    exact hcalls e₁ he₁ m (hsame ▸ hm)
  have hscoped := structureGraph_scoped hg (fun _ hl => absurd hl List.not_mem_nil)
    (fun e he => by
      obtain ⟨e₁, he₁, rfl⟩ := List.mem_map.1 he
      exact (hcalls e₁ he₁).scoped_of _ _) h
  refine ⟨fun m hm l hl => ?_, fun m hm l hl => ?_, fun hdup => ?_⟩
  · have hjump := hscoped m hm
    rw [Mark.Scoped, hl] at hjump
    exact hjump.resolve_right List.not_mem_nil
  · have hloop := hscoped m hm
    rw [Mark.Scoped, hl] at hloop
    exact hloop.2.1
  · refine List.nodup_iff_count_le_one.2 fun l => ?_
    have hkept : Landmark.Kept ctx₂.settings (.loop l) := by
      rw [hon.settings]
      exact hdup
    have hnone : total (.loop l) g'.code = 0 := by
      refine List.sum_eq_zero fun x hx => ?_
      obtain ⟨e, he, rfl⟩ := List.mem_map.1 hx
      exact (honly e he).tally_loop l
    have htotal := (hre g.entry).total _ hkept
    have hmade : (Landmark.loop l).made ctx'.labels.issued ≤ 1 := by
      show (if l.index < _ then 1 else 0) ≤ 1
      split <;> omega
    rw [hnone, total_cons, total_nil] at htotal
    rw [Body.count_loops]
    dsimp only at htotal
    omega

/-- **Structuring leaves the context in order, whatever its outcome.**  The open loops are those from
before, the old variables are the first of the new ones, all names differ, and a label that is given out
later was given out neither before nor during the work.  What was given out during the work is on
record, and the loops of the code that comes out have no other labels than these and older ones. -/
theorem structureGraph_upkeep (g : Graph) (ctx ctx' : Context) (r : Except Failure Node)
    (hnames : ctx.locals.names.Nodup) (h : Engine.outcome (structureGraph g) ctx = (r, ctx')) :
    ctx'.labels.openLoops = ctx.labels.openLoops ∧
    ctx.locals.entries.toList <+: ctx'.locals.entries.toList ∧
    ctx'.locals.names.Nodup ∧
    ∃ during, ctx'.labels.given = ctx.labels.given ++ during ∧
      Labels.Issues ctx.labels during ctx'.labels ∧
      (∀ ls₀ before, Labels.Issues ls₀ before ctx.labels →
        ∀ later ls, Labels.Issues ctx'.labels later ls → ∀ l ∈ later, l ∉ before ∧ l ∉ during) ∧
      (g.Numbered → ctx.Nested → Scoped ctx.labels.issued ctx.labels.openLoops g.code →
        ∀ n, r = .ok n → ∀ l ∈ n.body.loops, l ∈ during ∨ l.index < ctx.labels.issued) := by
  have hup := (Work.checks.structureGraph g).upkeep ctx
  rw [h] at hup
  obtain ⟨during, hduring⟩ := hup.labels
  refine ⟨hup.openLoops, hup.locals.earlier, hup.locals.distinct hnames, during, hduring.record, hduring,
    fun _ _ hbefore _ _ hlater _ hl => hbefore.disjoint hduring hlater hl, ?_⟩
  rintro hg hnest hscoped n rfl l hl
  have hlt := structureGraph_scoped hg hnest hscoped h |>.lt_of_mem_loops hl
  by_cases hold : l.index < ctx.labels.issued
  · exact .inr hold
  · exact .inl (hduring.mem_of_lt (Nat.le_of_not_lt hold) hlt)

def endlessMethod : Graph :=
  (Graph.empty.addNode { Node.new [.localGet ⟨0⟩, .drop] [] [] with exit := .seq ⟨0⟩ }).2

def nestedContext : Context :=
  { Context.initial ⟨"K", "run", "()V", []⟩ ⟨#[⟨"n", .i32⟩], []⟩ .standard none with
    labels := ⟨1, [⟨0⟩], [⟨0⟩]⟩ }

theorem structureGraph_upkeep_endlessMethod :
    ∃ n ctx', nestedContext.locals.names.Nodup ∧
      Engine.outcome (structureGraph endlessMethod) nestedContext = (.ok n, ctx') ∧
      n.body.loops = [⟨1⟩] ∧ ctx'.labels = ⟨2, [⟨0⟩], [⟨0⟩, ⟨1⟩]⟩ ∧ ctx'.locals.names.Nodup ∧
      ∃ during, ctx'.labels.given = nestedContext.labels.given ++ during ∧
        (∀ ls₀ before, Labels.Issues ls₀ before nestedContext.labels →
          ∀ later ls, Labels.Issues ctx'.labels later ls → ∀ l ∈ later, l ∉ before ∧ l ∉ during) ∧
        ∀ l ∈ n.body.loops, l ∈ during ∨ l.index < 1 := by
  have hnames : nestedContext.locals.names.Nodup := by simp [nestedContext, Locals.names, Context.initial]
  have h : Engine.outcome (structureGraph endlessMethod) nestedContext =
      (.ok { body := [.loop ⟨1⟩ [] [] [.localGet ⟨0⟩, .drop, .br ⟨1⟩], .unreachable], inputStack := [],
             outputStack := [], inputs := .empty, index := 0, exit := .ret },
        { nestedContext with labels := ⟨2, [⟨0⟩], [⟨0⟩, ⟨1⟩]⟩ }) := by rfl
  obtain ⟨_, _, hnames', during, hgiven, _, hlater, hloops⟩ :=
    structureGraph_upkeep endlessMethod _ _ _ hnames h
  have hnumbered : endlessMethod.Numbered := ⟨by decide, by decide⟩
  have hnested : nestedContext.Nested := by unfold Context.Nested; decide
  have hscoped : ∀ e ∈ endlessMethod.code, Body.Scoped 1 [⟨0⟩] e.2 := by
    intro e he
    exact Body.scoped_of_marks (by revert e; decide)
  exact ⟨_, _, hnames, h, by decide, rfl, hnames', during, hgiven, hlater,
    hloops hnumbered hnested hscoped _ rfl⟩

def knottedMethod : Graph :=
  let g := (Graph.empty.addNode { Node.new [.call "a" [] [.i32]] [] [] with exit := .branch ⟨1⟩ ⟨2⟩ }).2
  let g := (g.addNode { Node.new [.call "b" [] [.i32]] [] [] with exit := .branch ⟨2⟩ ⟨3⟩ }).2
  let g := (g.addNode { Node.new [.call "c" [] [.i32]] [] [] with exit := .branch ⟨1⟩ ⟨3⟩ }).2
  (g.addNode { Node.new [.call "d" [] []] [] [] with exit := .ret }).2

theorem structureGraph_labels_knottedMethod :
    ∃ n ctx', knottedMethod.Numbered ∧ (∀ e ∈ knottedMethod.nodes, e.2.body.OnlyCalls) ∧
      Yields (structureGraph knottedMethod) (.initial ⟨"K", "run", "()V", []⟩ ⟨#[], []⟩ .standard none) n
        ctx' ∧
      n.body.loops = [⟨0⟩, ⟨1⟩] ∧
      (∀ m ∈ Body.marks n.body, ∀ l, m.landmark = .jump l → l ∈ m.around) ∧
      (∀ m ∈ Body.marks n.body, ∀ l, m.landmark = .loop l → l ∉ m.around) ∧ n.body.loops.Nodup := by
  have hnum : knottedMethod.Numbered := ⟨by decide, by decide⟩
  have hcalls : ∀ e ∈ knottedMethod.nodes, e.2.body.OnlyCalls := by decide
  have hrun : comesTo (structureGraph knottedMethod)
      (.initial ⟨"K", "run", "()V", []⟩ ⟨#[], []⟩ .standard none) (·.body.loops = [⟨0⟩, ⟨1⟩]) = true := by
    decide +kernel
  obtain ⟨n, ctx', h, hlabels⟩ := yields_of_comesTo hrun
  obtain ⟨hjumps, hloops, hnodup⟩ := structureGraph_labels _ _ _ _ _ _ _ hnum hcalls h
  exact ⟨n, ctx', hnum, hcalls, h, of_decide_eq_true hlabels, hjumps, hloops, hnodup rfl⟩

/-! ### Calls -/

open Classical in
/-- **Without copies no call comes to stand more often than before.**  A call occurs in the code of a
structured method at most as often as in the bodies of the nodes that the entry reaches. -/
theorem structureGraph_calls (g : Graph) (ctx ctx' : Context) (n : Node) (hg : g.Numbered)
    (hdup : ctx.settings.allowDuplication = false) (hlimit : ctx.settings.smallReturnLimit = 0)
    (h : Yields (structureGraph g) ctx n ctx') (name : String) (inputs outputs : StackType) :
    Body.tally (.call name inputs outputs) n.body ≤
      ((g.nodes.filter fun e => Relation.ReflTransGen g.chart.Targets g.entry e.1).map fun e =>
        Body.tally (.call name inputs outputs) e.2.body).sum := by
  obtain ⟨g', ctx₁, ctx₂, hnorm, hon, hre⟩ := structureGraph_rearranges hg h
  obtain ⟨_, reached, hpath, hmarks⟩ := normalize_code hg hnorm
  have hkept : Landmark.Kept ctx₂.settings (.call name inputs outputs) := by
    rw [hon.settings]
    exact ⟨hdup, hlimit⟩
  have htotal := (hre g.entry).total _ hkept
  rw [total_cons, total_nil] at htotal
  have hsame : total (.call name inputs outputs) g'.code =
      total (.call name inputs outputs) (g.code.filter (·.1 ∈ reached)) := total_congr hmarks
  have hsub : (g.code.filter (·.1 ∈ reached)) ⊆ (g.nodes.filter fun e =>
      Relation.ReflTransGen g.chart.Targets g.entry e.1).map fun e => (e.1, e.2.body) := by
    intro e he
    obtain ⟨he, hid⟩ := List.mem_filter.1 he
    obtain ⟨e', he', rfl⟩ := List.mem_map.1 he
    refine List.mem_map.2 ⟨e', List.mem_filter.2 ⟨he', ?_⟩, rfl⟩
    rw [decide_eq_true_eq] at hid ⊢
    exact hpath _ hid
  have hle := sum_map_le_of_subset (fun e => Body.tally (.call name inputs outputs) e.2)
    (hg.nodup_code.of_map.filter _) hsub
  rw [List.map_map] at hle
  calc Body.tally (.call name inputs outputs) n.body
      ≤ total (.call name inputs outputs) g'.code := htotal
    _ = total (.call name inputs outputs) (g.code.filter (·.1 ∈ reached)) := hsame
    _ ≤ _ := hle

def Settings.copyless : Settings := { Settings.standard with smallReturnLimit := 0 }

open Classical in
theorem structureGraph_calls_knottedMethod :
    ∃ n ctx', knottedMethod.Numbered ∧
      Yields (structureGraph knottedMethod) (.initial ⟨"K", "run", "()V", []⟩ ⟨#[], []⟩ .copyless none) n
        ctx' ∧
      Body.tally (.call "d" [] []) n.body = 1 ∧
      1 ≤ ((knottedMethod.nodes.filter fun e =>
        Relation.ReflTransGen knottedMethod.chart.Targets knottedMethod.entry e.1).map fun e =>
          Body.tally (.call "d" [] []) e.2.body).sum := by
  have hnum : knottedMethod.Numbered := ⟨by decide, by decide⟩
  have hrun : comesTo (structureGraph knottedMethod)
      (.initial ⟨"K", "run", "()V", []⟩ ⟨#[], []⟩ .copyless none)
      (fun n => Body.tally (.call "d" [] []) n.body = 1) = true := by
    decide +kernel
  obtain ⟨n, ctx', h, hone⟩ := yields_of_comesTo hrun
  have hle := structureGraph_calls _ _ _ _ hnum rfl rfl h "d" [] []
  have hone := of_decide_eq_true hone
  exact ⟨n, ctx', hnum, h, hone, hone ▸ hle⟩

end Structurer
