/-
**Reduction and dispatch are faithful.**

Nobody who runs a graph can tell whether it was reduced before, and nobody who runs the code of a
dispatch loop can tell it from the graph that the loop was made for.
-/

import Structurer.Proofs.Behaviour
import Structurer.Proofs.Dispatch

namespace Structurer

open Engine Machine Chart

variable {G : Chart} {ctx : Context} {plain : Prop}

/-! ### Graphs that pass their check -/

namespace Graph

variable {g : Graph}

theorem Numbered.tidy (hg : g.Numbered) (h : g.linkError? = none) : g.Tidy := by
  have hnodes : ∀ {id n}, g.get? id = some n → (id, n) ∈ g.nodes := fun h =>
    (get?_eq_some_iff hg.nodup).1 h
  have herror : ∀ id n, g.get? id = some n → (∀ out ∈ n.outputs, g.outputError? id out = none) ∧
      ∀ p ∈ n.inputs.toList, g.inputError? id p = none := by
    intro id n hn
    unfold linkError? at h
    split at h
    · cases h
    · have hp := Option.or_eq_none_iff.1 (List.findSome?_eq_none_iff.1 h (id, n) (hnodes hn))
      exact ⟨List.findSome?_eq_none_iff.1 hp.1, List.findSome?_eq_none_iff.1 hp.2⟩
  refine ⟨hg.nodup, hg.issued, fun id p => ⟨?_, ?_⟩⟩
  · rintro ⟨n, hn, hp⟩
    refine ⟨⟨n.block, block?_of_get? hn⟩, ?_⟩
    have hinput := (herror id n hn).2 p hp
    unfold inputError? at hinput
    split at hinput
    · next m hm =>
        split at hinput
        · next ht => exact (targets_iff_of_get? hm).2 (targets_iff.1 ht)
        · cases hinput
    · cases hinput
  · rintro ⟨⟨b, hb⟩, ⟨b', hb', hout⟩⟩
    obtain ⟨n, hn, rfl⟩ := get?_of_block? hb
    obtain ⟨m, hm, rfl⟩ := get?_of_block? hb'
    have houtput := (herror p m hm).1 id hout
    unfold outputError? at houtput
    rw [hn] at houtput
    simp only at houtput
    split at houtput
    · next hc =>
        refine ⟨n, hn, ?_⟩
        unfold NodeSet.contains at hc
        exact (by simpa using hc : p ∈ n.inputs.toList)
    · cases houtput

end Graph

theorem Chart.Typed.of_plain (h : G.Typed (ctx.regime False))
    (hp : plain → ∀ {id b}, G.block? id = some b → Body.Plain b.body) :
    G.Typed (ctx.regime plain) where
  blocks := by
    intro id b hb
    have ht := h.blocks hb
    unfold Block.Typed
    cases he : b.exit with
    | seq n => exact ⟨(ht.seq he).types, fun hz => hp hz hb⟩
    | branch n m => exact ⟨(ht.branch he).types, fun hz => hp hz hb⟩
    | ret => exact ⟨(ht.ret he).types, fun hz => hp hz hb⟩
  edges := h.edges

/-- **A graph that passes its check is sound.** -/
theorem Graph.Sound.of_inspect {g : Graph} (hg : g.Numbered) (hne : g.nodes ≠ [])
    (h : ctx.inspect g = .ok ()) (hp : plain → ∀ e ∈ g.nodes, Body.Plain e.2.body) :
    g.Sound ctx plain := by
  have hlinks : g.linkError? = none := by
    unfold Context.inspect at h
    cases hl : g.linkError? with
    | none => rfl
    | some e =>
      rw [hl] at h
      cases h
  have htidy := hg.tidy hlinks
  obtain ⟨hclosed, htyped⟩ := (Context.inspect_eq_ok_iff htidy hne).1 h
  refine ⟨⟨htidy, hclosed⟩, htyped.of_plain fun hz id b hb => ?_⟩
  obtain ⟨n, hn, rfl⟩ := Graph.get?_of_block? hb
  exact hp hz (id, n) ((Graph.get?_eq_some_iff htidy.nodup).1 hn)

/-! ### Reduction -/

/-- **A reduced graph behaves as the graph it came from.**  The graph has passed its check in a context
whose open loops have labels that were given out, and no zero in its code has the negative sign. -/
theorem reduce_sameBehaviour {ctx ctx' : Context} {g : Graph} {r : Reduction} (numbered : g.Numbered)
    (nonempty : g.nodes ≠ []) (checked : ctx.inspect g = .ok ()) (slots : ctx.locals.Valid)
    (issued : ∀ l ∈ ctx.labels.openLoops, l.index < ctx.labels.issued)
    (plain : ∀ e ∈ g.nodes, Body.Plain e.2.body) (reduced : Yields (reduce g) ctx r ctx') {n : Node}
    (entry : g.get? g.entry = some n) {s : State} (types : HasTypes s.stack n.inputStack)
    (holds : Holds ctx.locals s) :
    SameBehaviour ctx.signature.results.length (fun w => g.run w g.entry s)
      (fun w => r.graph.run w r.graph.entry s) := by
  have hs : g.Sound ctx True := .of_inspect numbered nonempty checked fun _ => plain
  obtain ⟨r', ctx₁, hy, hended⟩ := reduce_works ⟨slots, issued⟩ hs
  obtain ⟨rfl, rfl⟩ := hy.unique reduced
  have hrefined : Refined True ctx g ctx₁ r'.graph := by
    cases r' with
    | solved g' => exact hended.1
    | stuck g' changed => exact hended.1
    | rejected g' e => exact hended.elim
  refine sameBehaviour_of_refines (R := ctx.regime True) hs.typed hs.closed (heedless_nothing hs.typed)
    (Graph.block?_of_get? entry) types holds fun w => ?_
  have hgood : Good (ctx.regime True) g.chart (g.entry, s.restrict ctx.locals) :=
    (filled_restrict (R := ctx.regime True) (K := fun _ => False) (Graph.block?_of_get? entry) types
      holds).good
  exact hrefined.improves trivial _ w _ _ hgood (le_forget.trans le_forget)

def spinningMethod : Graph :=
  let g := (Graph.empty.addNode { Node.new [.call "more" [.i32] [.i32, .i32]] [.i32] [.i32] with
    exit := .branch ⟨0⟩ ⟨1⟩ }).2
  (g.addNode { Node.new [.ret] [.i32] [] with exit := .ret }).2.recalculateInputs

def openContext (settings : Settings) : Context :=
  { Context.initial ⟨"K", "run", "(I)I", [.i32]⟩ ⟨#[⟨"n", .i32⟩], []⟩ settings none with
    labels := ⟨1, [⟨0⟩], [⟨0⟩]⟩ }

def sevenOnStack : State := ⟨[.i32 7], fun _ => some (.i32 0), []⟩

theorem holds_sevenOnStack (settings : Settings) : Holds (openContext settings).locals sevenOnStack := by
  intro id var hid
  refine ⟨.i32 0, rfl, ?_⟩
  obtain ⟨_ | k⟩ := id
  · cases hid
    rfl
  · simp [openContext, Context.initial, Locals.get?] at hid

theorem reduce_sameBehaviour_spinningMethod :
    ∃ r ctx', (openContext .standard).inspect spinningMethod = .ok () ∧
      Yields (reduce spinningMethod) (openContext .standard) r ctx' ∧ r.graph.size = 1 ∧
      SameBehaviour 1 (fun w => spinningMethod.run w ⟨0⟩ sevenOnStack)
        (fun w => r.graph.run w r.graph.entry sevenOnStack) := by
  have hnum : spinningMethod.Numbered := ⟨by decide, by decide⟩
  have hchecked : (openContext .standard).inspect spinningMethod = .ok () := by rfl
  have hplain : ∀ e ∈ spinningMethod.nodes, Body.Plain e.2.body := by
    intro e he
    rcases List.mem_cons.1 he with rfl | he
    · exact ⟨trivial, trivial⟩
    · rw [List.mem_singleton.1 he]
      exact ⟨trivial, trivial⟩
  have hrun : comesTo (reduce spinningMethod) (openContext .standard) (·.graph.size = 1) = true := by
    decide +kernel
  obtain ⟨r, ctx', hr, hsize⟩ := yields_of_comesTo hrun
  exact ⟨r, ctx', hchecked, hr, of_decide_eq_true hsize,
    reduce_sameBehaviour hnum (by decide) hchecked ⟨by simp [openContext, Context.initial],
      by simp [openContext, Context.initial]⟩ (by decide) hplain hr rfl (.singleton rfl)
      (holds_sevenOnStack .standard)⟩

/-! ### Dispatch -/

theorem Chart.Heedless.of_known {ls : Locals} {K K' : LocalId → Prop} (h : G.Heedless ls K)
    (hK : ∀ id var, ls.get? id = some var → (K' id ↔ K id)) : G.Heedless ls K' := by
  intro id b hb w s hs ht hstuck
  have hsame : (s.restrict ls).forget K' = (s.restrict ls).forget K := by
    unfold State.restrict State.forget
    congr 1
    funext i
    by_cases hi : ls.get? i = none
    · simp [hi]
    · obtain ⟨var, hvar⟩ := Option.ne_none_iff_exists'.1 hi
      have hiff := hK i var hvar
      by_cases hk : K i
      · rw [if_pos hk, if_pos (hiff.2 hk)]
      · rw [if_neg hk, if_neg fun h => hk (hiff.1 h)]
  have hrestrict : Holds ls (s.restrict ls) := by
    intro i var hi
    rw [State.restrict_locals hi]
    exact hs i var hi
  have hsound := h hb w _ hrestrict ht
  have hle : Le ((s.restrict ls).forget K') (s.forget K') :=
    Le.forget_right (le_forget.trans le_forget)
  have hrefines := exec_le w b.body hle
  rw [hsame, hstuck] at hrefines
  generalize exec w b.body ((s.restrict ls).forget K) = x at hrefines hsound
  cases hrefines with
  | stuck _ => exact hsound rfl
  | ends hrel => cases hrel

/-- **A dispatch loop behaves as its graph.**  The graph has passed its check under strict references
in a context whose open loops have labels that were given out, no block looks at what others left in
slots, and the blocks can be numbered by integers of 32 bits.  Then there is a dispatch loop, it passes
the check of a node that leads nowhere, nobody can tell it from the graph, and whenever a round of it
begins, the selector holds the number of a case. -/
theorem flatDispatch_sameBehaviour {ctx : Context} {g : Graph} (numbered : g.Numbered)
    (nonempty : g.nodes ≠ []) (strict : ctx.settings.strictReferences = true)
    (checked : ctx.inspect g = .ok ()) (slots : ctx.locals.Valid)
    (issued : ∀ l ∈ ctx.labels.openLoops, l.index < ctx.labels.issued)
    (heedless : g.chart.Heedless ctx.locals ctx.locals.IsSlot) (size : g.size ≤ 2 ^ 31) :
    ∃ n ctx' code label selector bodies, Yields (flatDispatch g) ctx n ctx' ∧ n.exit = .ret ∧
      ctx'.checker.checkNode n = .ok () ∧
      n.body = code ++ [.loop label [] [] [.switch selector bodies], .unreachable] ∧
      ∀ entry, g.get? g.entry = some entry → n.inputStack = entry.inputStack ∧
        ∀ s, HasTypes s.stack entry.inputStack → Holds ctx.locals s →
          SameBehaviour ctx.signature.results.length (fun w => g.run w g.entry s)
            (fun w => exec w n.body s) ∧
          ∀ w t t', exec w code s = some (.next t) →
            Dispatch.Heads w label [.switch selector bodies] t t' →
            ∃ c : Int32, t'.locals selector = some (.i32 c) ∧ 0 ≤ c.toInt ∧ c.toInt < bodies.length := by
  have hf : ctx.Fine := ⟨slots, issued⟩
  have hs : g.Sound ctx False := .of_inspect numbered nonempty checked False.elim
  obtain ⟨n, ctx', hy, b, code, label, selector, nodes, bodies, hlaid, rfl⟩ :=
    flatDispatch_spec hf hs.tidy hs.closed
  have hvalid := hlaid.grows.valid slots
  have L : Layout (ctx.regime False) ctx'.locals.IsSlot g.chart ctx'.locals :=
    ⟨hs.typed, hs.closed, strict, hlaid.grows.locals, hvalid, ctx'.locals.slotsAre_isSlot⟩
  have hheedless : g.chart.Heedless ctx.locals ctx'.locals.IsSlot := heedless.of_known fun id var hid =>
    ⟨hlaid.grows.locals.old hid, hlaid.grows.locals.isSlot⟩
  refine ⟨_, ctx', code, label, selector, bodies, hy, rfl, ?_, rfl, ?_⟩
  · refine checkNode_eq_ok_iff_typed.2 (Block.Typed.mono (R := ctx'.regime False) ?_ ?_)
    · exact ⟨⟨fun _ _ h => h, rfl, id⟩, .refl _, id⟩
    · exact hlaid.stops hf hs.typed
  · intro entry hentry
    have hb := Graph.block?_of_get? hentry
    have hsame := hb
    rw [hlaid.entry] at hsame
    cases hsame
    refine ⟨rfl, fun s types holds => ?_⟩
    have hfilled : Filled (ctx.regime False) ctx'.locals.IsSlot g.chart
        (g.entry, s.restrict ctx.locals) := filled_restrict (R := ctx.regime False) hb types holds
    have hle : Le ((s.restrict ctx.locals).forget ctx'.locals.IsSlot) s := le_forget.trans le_forget
    refine ⟨sameBehaviour_of_refines (R := ctx.regime False) hs.typed hs.closed hheedless hb types holds
      fun w => ?_, fun w t t' ht hheads => ?_⟩
    · exact (hlaid.refines L size hfilled.good).le_trans (exec_le w _ hle)
    · obtain ⟨k, hk, hsel⟩ := hlaid.selected L size hfilled.good hle
        (walk_ne_stuck (R := ctx.regime False) hs.typed hs.closed hheedless hfilled) ht hheads
      have hlen : bodies.length ≤ 2 ^ 31 := by
        rw [← hlaid.cases.length_eq]
        exact Nat.le_trans hlaid.length size
      have hint : (Int32.ofNat k).toInt = k := Int32.toInt_ofNat_of_lt (by omega)
      exact ⟨_, hsel, by omega, by omega⟩

def knottedGraph : Graph :=
  let g := (Graph.empty.addNode { Node.new [.call "a" [.i32] [.i32, .i32]] [.i32] [.i32] with
    exit := .branch ⟨1⟩ ⟨2⟩ }).2
  let g := (g.addNode { Node.new [.call "b" [.i32] [.i32, .i32]] [.i32] [.i32] with
    exit := .branch ⟨2⟩ ⟨0⟩ }).2
  let g := (g.addNode { Node.new [.call "c" [.i32] [.i32, .i32]] [.i32] [.i32] with
    exit := .branch ⟨1⟩ ⟨3⟩ }).2
  let g := (g.addNode { Node.new [.ret] [.i32] [] with exit := .ret }).2
  (g.addNode { Node.new [.i32Const 1] [.i32] [.i32] with
    exit := .branch ⟨3⟩ ⟨3⟩ }).2.recalculateInputs

theorem flatDispatch_sameBehaviour_knottedGraph :
    ∃ ctx n ctx' code label selector bodies, ctx.settings.strictReferences = true ∧
      ctx.inspect knottedGraph = .ok () ∧
      knottedGraph.chart.Heedless ctx.locals ctx.locals.IsSlot ∧
      Yields (flatDispatch knottedGraph) ctx n ctx' ∧ ctx'.checker.checkNode n = .ok () ∧
      n.body = code ++ [.loop label [] [] [.switch selector bodies], .unreachable] ∧
      SameBehaviour 1 (fun w => knottedGraph.run w ⟨0⟩ sevenOnStack)
        (fun w => exec w n.body sevenOnStack) ∧
      ∀ w t t', exec w code sevenOnStack = some (.next t) →
        Dispatch.Heads w label [.switch selector bodies] t t' →
        ∃ c : Int32, t'.locals selector = some (.i32 c) ∧ 0 ≤ c.toInt ∧ c.toInt < bodies.length := by
  let ctx := openContext { Settings.standard with strictReferences := true }
  have hnum : knottedGraph.Numbered := ⟨by decide, by decide⟩
  have hchecked : ctx.inspect knottedGraph = .ok () := by rfl
  have hslots : ctx.locals.Valid :=
    ⟨by simp [ctx, openContext, Context.initial], by simp [ctx, openContext, Context.initial]⟩
  have hs : knottedGraph.Sound ctx False := .of_inspect hnum (by decide) hchecked False.elim
  have hheedless : knottedGraph.chart.Heedless ctx.locals ctx.locals.IsSlot :=
    heedless_of_unknown (R := ctx.regime False) hs.typed
      (by simp [ctx, openContext, Context.initial, Locals.IsSlot])
  obtain ⟨n, ctx', code, label, selector, bodies, hy, _, hnode, hbody, hsame⟩ :=
    flatDispatch_sameBehaviour hnum (by decide) rfl hchecked hslots (by decide) hheedless (by decide)
  obtain ⟨_, hsame⟩ := hsame _ rfl
  obtain ⟨hsame, hselected⟩ := hsame sevenOnStack (.singleton rfl) (holds_sevenOnStack _)
  exact ⟨ctx, n, ctx', code, label, selector, bodies, rfl, hchecked, hheedless, hy, hnode, hbody,
    hsame, hselected⟩

end Structurer
