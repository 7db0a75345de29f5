/-
**Cycles become loops.**

The walk goes round a cycle block by block.  A loop does the same inside one block: each round of the
loop is met by the steps of the walk from the head of the cycle back to it.
-/

import Structurer.Proofs.Reducing

namespace Structurer.Reduce

open Engine Fallible Machine Chart List Structurer.Graph Succeeds

variable {arm : Arm} {a b : Block} {R : Regime} {id : NodeId} {label : LoopLabel}

/-! ### Rounds -/

section Rounds

variable {K : LocalId → Prop} {G : Chart} {w : World} {p : NodeId × State} {s s' t : State}
  {N : NodeId × State → State → Prop}

/-- The walk is at the head of the cycle, with a state that has less than that of the loop. -/
structure AtHead (R : Regime) (K : LocalId → Prop) (G : Chart) (id : NodeId) (p : NodeId × State)
    (t : State) : Prop where
  head : p.1 = id
  good : Good R G p
  le : Le (p.2.forget K) t

abbrev Round (R : Regime) (K : LocalId → Prop) (G : Chart) (w : World) (id : NodeId) (b : Block)
    (label : LoopLabel) (N : NodeId × State → State → Prop) : NodeId × State → Result → Prop :=
  Turn (G.step K w) (AtHead R K G id) N label b.inputStack.length

theorem round_of_reaches (hb : G.block? id = some b) (h : Reaches R K G w id p t) :
    Round R K G w id b label N p (.jump label t) := by
  obtain ⟨t₁, hgo, hgood, hle⟩ := h
  have hlen : t.stack.length = b.inputStack.length := by
    rw [hle.stack_eq]
    exact (hgood.types hb).length
  have hround : endRound label b.inputStack.length [] (.jump label t) = .inl t := by
    simp [endRound, ← hlen, State.withStack]
  unfold Round Turn
  rw [hround]
  exact ⟨(id, t₁), hgo, rfl, hgood, hle⟩

theorem round_brIf (hb : G.block? id = some b) (harm : arm.target = id)
    (h : Chooses R K G w arm p t) :
    Meets (G.step K w) (Round R K G w id b label (Reaches R K G w arm.other)) p
      (exec w [.brIf label] t) := by
  obtain ⟨c, rest, hs, hr⟩ := h
  rw [exec_brIf hs]
  by_cases hc : c ≠ 0
  · rw [if_pos hc, harm] at hr
    rw [if_pos hc]
    exact .here (round_of_reaches hb hr)
  · rw [if_neg hc] at hr ⊢
    exact .here hr

/-- **A loop meets the walk if each of its rounds does.** -/
theorem meets_circle (hb : G.block? id = some b) {round : Body} (results : StackType)
    (step : ∀ s s', Good R G (id, s) → Le (s.forget K) s' →
      Meets (G.step K w) (Round R K G w id b label N) (id, s) (exec w round s'))
    (hg : Good R G (id, s)) (hle : Le (s.forget K) s') :
    G.Tracks K w N (id, s)
      (exec w [.loop label b.inputStack results round] s') := by
  have ht : HasTypes s'.stack b.inputStack := by
    rw [hle.stack_eq]
    exact hg.types hb
  rw [exec_loop ht]
  refine meets_loop (Q := AtHead R K G id) ?_ ⟨rfl, hg, hle⟩
  rintro ⟨i, u⟩ u' ⟨hi, hgood, hlt⟩
  cases (show i = id from hi)
  exact step u u' hgood hlt

end Rounds

variable {ctx ctx' : Context} {plain : Prop} {g : Graph}

/-! ### Cycles of one node -/

theorem endless?_eq_some (hs : g.Consistent) (h : endless? g = some id) :
    ∃ b, g.chart.block? id = some b ∧ b.exit = .seq id := by
  obtain ⟨⟨id', n⟩, hfind, rfl⟩ := Option.map_eq_some_iff.1 h
  have hexit := find?_some hfind
  exact ⟨n.block, hs.block_of_mem (mem_of_find?_eq_some hfind), by simpa using hexit⟩

theorem makeEndlessLoop_recasts (hs : g.Consistent) (ctx : Context) :
    Succeeds (makeEndlessLoop g) ctx (Attempt ctx fun g' ctx' => ∃ label id b, FreshLabel ctx label ctx' ∧
      b.exit = .seq id ∧ g.Recasts id b ⟨[.loop label b.inputStack [] (b.body ++ [.br label]),
        .unreachable], b.inputStack, b.outputStack, .ret⟩ g') := by
  unfold makeEndlessLoop
  cases h : endless? g with
  | none => exact .pure .nothing
  | some id =>
    obtain ⟨b, hb, he⟩ := endless?_eq_some hs h
    refine (freshLabel_spec ctx).bind fun label ctx' hl => ?_
    refine (works (hs.recasts hb (F := fun b => { b with
      body := [.loop label b.inputStack [] (b.body ++ [.br label]), .unreachable] })
      {} .ret nofun ?_ []) ctx').bind ?_
    · simp [Block.heft, he]
    · rintro g' _ ⟨rfl, hrecasts⟩
      exact .pure (.success ⟨label, id, b, hl, he, hrecasts⟩)

theorem makeEndlessLoop_works (hf : ctx.Fine) (hs : g.Sound ctx plain) :
    Succeeds (makeEndlessLoop g) ctx (Reduced plain ctx g) := by
  refine (makeEndlessLoop_recasts hs.toConsistent ctx).mono fun r ctx' hr => hr.mono ?_
  rintro g' ⟨label, id, b, hl, he, hrecasts⟩
  have hb := hrecasts.old
  have hnew := hl.fresh hf plain
  have hT := (hs.grows hl.grows).typed
  refine .of_recasts hs hl.grows hrecasts ⟨⟨b, hb, rfl⟩, ?_, ?_⟩
    fun _ K => serves_ret rfl fun w s s' hg hle => ?_
  · have hbody := ((hT.blocks hb).seq he).mono (Regime.le_inLoop hnew b.inputStack)
    have hback := Regime.Fits.stops_br (hT.edges hb (Exit.mem_seq he) hb) label
    exact ((hbody.stops hback).loop []).append fun _ => ⟨trivial, trivial⟩
  · intro out _ hout
    cases hout
  · show Meets _ _ _ (exec w ([.loop label b.inputStack [] (b.body ++ [.br label])] ++
      [.unreachable]) s')
    rw [exec_append]
    refine Meets.andThen (N := fun _ _ => False) (meets_circle hb [] ?_ hg hle) fun _ _ h => h.elim
    intro u u' hgood hlt
    rw [exec_append]
    refine Meets.andThen_turn hT hs.closed hgood hnew (meets_seq hT hs.closed hb he hgood hlt) ?_
    intro q t _ hreach
    rw [exec_br]
    exact .here (round_of_reaches hb hreach)

theorem while?_works (hs : g.Consistent) :
    Works (while? g) fun r => ∀ id arm, r = some (id, arm) →
      ∃ b, g.chart.block? id = some b ∧ arm ∈ b.exit.arms ∧ arm.target = id := by
  refine hs.firstArm? fun id b arm _ _ => .pure fun h => ?_
  simp only [Bool.and_eq_true, beq_iff_eq] at h
  exact h.1

theorem makeWhileLoop_recasts (hs : g.Consistent) (ctx : Context) :
    Succeeds (makeWhileLoop g) ctx (Attempt ctx fun g' ctx' => ∃ label id b arm,
      FreshLabel ctx label ctx' ∧ arm ∈ b.exit.arms ∧ arm.target = id ∧
      g.Recasts id b ⟨[.loop label b.inputStack b.outputStack (arm.toward b.body ++ [.brIf label])],
        b.inputStack, b.outputStack, .seq arm.other⟩ g') := by
  refine (works (while?_works hs) ctx).bind ?_
  rintro (_ | ⟨id, arm⟩) _ ⟨rfl, hr⟩
  · exact .pure .nothing
  obtain ⟨b, hb, harm, htarget⟩ := hr id arm rfl
  refine (freshLabel_spec _).bind fun label ctx' hl => ?_
  refine (works (hs.recasts hb (F := fun b => { b with
    body := [.loop label b.inputStack b.outputStack (arm.toward b.body ++ [.brIf label])] })
    {} (.seq arm.other) ?_ ?_ []) ctx').bind ?_
  · exact forall_mem_singleton.2 (hs.target hb (mem_outputs_of_arm harm).2)
  · have hheft := heft_of_arm harm
    show 2 < b.heft
    omega
  · rintro g' _ ⟨rfl, hrecasts⟩
    exact .pure (.success ⟨label, id, b, arm, hl, harm, htarget, hrecasts⟩)

theorem makeWhileLoop_works (hf : ctx.Fine) (hs : g.Sound ctx plain) :
    Succeeds (makeWhileLoop g) ctx (Reduced plain ctx g) := by
  refine (makeWhileLoop_recasts hs.toConsistent ctx).mono fun r ctx' hr => hr.mono ?_
  rintro g' ⟨label, id, b, arm, hl, harm, htarget, hrecasts⟩
  have hb := hrecasts.old
  have hnew := hl.fresh hf plain
  have hT := (hs.grows hl.grows).typed
  obtain ⟨hto, hother⟩ := mem_outputs_of_arm harm
  refine .of_recasts hs hl.grows hrecasts ⟨⟨b, hb, rfl⟩, ?_, ?_⟩
    fun hb' K => serves_seq hrecasts.consistent.closed hb' rfl fun w s s' hg hle => ?_
  · have hbody := (leads_toward hT hb harm).mono (Regime.le_inLoop hnew b.inputStack)
    have hback := Regime.Fits.leads_brIf (hT.edges hb hto (htarget.symm ▸ hb)) label
    exact (hbody.append hback).loop
  · intro out b'' hout hb''
    cases mem_singleton.1 hout
    exact (hT.edges hb hother hb'' :)
  · refine meets_circle hb _ ?_ hg hle
    intro u u' hgood hlt
    rw [exec_append]
    refine Meets.andThen_turn hT hs.closed hgood hnew (meets_toward hT hs.closed hb harm hgood hlt) ?_
    exact fun q t _ hch => round_brIf hb htarget hch

/-! ### Cycles of two nodes -/

theorem twoNodeCycle?_works (hs : g.Consistent) :
    Works (twoNodeCycle? g) fun r => ∀ e, r = some e →
      ∃ b a, g.chart.block? e.1 = some b ∧ b.exit = .seq e.2 ∧ g.chart.block? e.2 = some a ∧
        a.exit = .seq e.1 ∧ e.2 ≠ e.1 ∧ e.2 ≠ g.entry ∧ ∀ q, g.chart.Targets q e.2 → q = e.1 := by
  refine Works.findSomeM? ?_
  rintro ⟨id, n⟩ hn
  have hb := hs.block_of_mem hn
  dsimp only
  cases he : n.exit with
  | branch t f => exact Works.nothing
  | ret => exact Works.nothing
  | seq second =>
    obtain ⟨a, ha⟩ := hs.target hb (Exit.mem_seq he)
    dsimp only
    split
    · exact Works.nothing
    next hne =>
      refine (works_hasExit ha (.seq id)).bind fun r hr => ?_
      cases r with
      | false => exact Works.nothing
      | true =>
        refine (hs.onlyInput ha id).bind fun r₁ hr₁ => ?_
        cases r₁ with
        | true =>
          refine .pure fun e h => ?_
          cases h
          exact ⟨_, a, hb, he, ha, hr rfl, hne, hr₁ rfl⟩
        | false =>
          refine (hs.onlyInput hb second).bind fun r₂ hr₂ => ?_
          cases r₂ with
          | false => exact Works.nothing
          | true =>
            refine .pure fun e h => ?_
            cases h
            exact ⟨a, _, ha, hr rfl, hb, he, Ne.symm hne, hr₂ rfl⟩

theorem mergeTwoNodeCycle_recasts (hs : g.Consistent) :
    Works (mergeTwoNodeCycle g) fun r => ∀ g', r = some g' → ∃ keep absorbed b a,
      b.exit = .seq absorbed ∧ g.chart.block? absorbed = some a ∧ a.exit = .seq keep ∧
      g.Recasts keep b ⟨b.body ++ a.body, b.inputStack, a.outputStack, .seq keep⟩ g' := by
  refine (twoNodeCycle?_works hs).bind ?_
  rintro (_ | ⟨keep, absorbed⟩) hr
  · exact Works.nothing
  obtain ⟨b, a, hb, he, ha, hea, hne, hentry, honly⟩ := hr _ rfl
  refine (works_removeNode ha).bind ?_
  rintro ⟨last, _⟩ ⟨rfl, rfl⟩
  refine (hs.absorbs hb ha hne hentry honly (F := fun b => { b with
    body := b.body ++ last.body, outputStack := last.outputStack }) {} (e := .seq keep) ?_ ?_).bind ?_
  · exact forall_mem_singleton.2 ⟨hne.symm, b, hb⟩
  · simp [Block.heft, he]
  · intro g' hrecasts
    refine .pure fun _ h => ?_
    cases h
    exact ⟨keep, absorbed, b, _, he, ha, hea, hrecasts⟩

theorem mergeTwoNodeCycle_works (hs : g.Sound ctx plain) :
    Reducing plain ctx g (mergeTwoNodeCycle g) := by
  refine (mergeTwoNodeCycle_recasts hs.toConsistent).mono fun r hr g' hg' => ?_
  obtain ⟨keep, absorbed, b, a, he, ha, hea, hrecasts⟩ := hr g' hg'
  have hb := hrecasts.old
  have hT := hs.typed
  refine .of_recasts hs (.refl ctx) hrecasts ⟨⟨b, hb, rfl⟩, ?_, ?_⟩
    fun hb' K => serves_seq hrecasts.consistent.closed hb' rfl fun w s s' hg hle => ?_
  · exact ((hT.blocks hb).seq he).append
      (((hT.blocks ha).seq hea).fits (hT.edges hb (Exit.mem_seq he) ha) (.refl _ _))
  · intro out b'' hout hb''
    cases mem_singleton.1 hout
    exact (hT.edges ha (Exit.mem_seq hea) hb'' :)
  · show Meets _ _ _ (exec w (b.body ++ a.body) s')
    rw [exec_append]
    refine Meets.andThen (meets_seq hT hs.closed hb he hg hle) ?_
    rintro p t ⟨t₁, hgo, hgood, hlt⟩
    exact (meets_seq hT hs.closed ha hea hgood hlt).of_goes hgo

/-! ### Circles -/

/-- The rest of a circle: it leads back to the branch at its head, or to the other arm. -/
structure Circle (R : Regime) (g : Graph) (id : NodeId) (b : Block) (arm : Arm) (label : LoopLabel)
    (circle : Body) : Prop where
  typed : (R.inLoop label b.inputStack).Leads b.outputStack circle b.outputStack
  meets : ∀ K w s s', Good R g.chart (arm.target, s) → Le (s.forget K) s' →
    Meets (g.chart.step K w) (Round R K g.chart w id b label (Reaches R K g.chart w arm.other))
      (arm.target, s) (exec w circle s')

/-- An arm that can be put into the branch at the head of its circle. -/
structure Circular (g : Graph) (id : NodeId) (arm : Arm) (b a : Block) : Prop where
  head : g.chart.block? id = some b
  leads : arm ∈ b.exit.arms
  circle : g.chart.block? arm.target = some a
  target_ne_other : arm.target ≠ arm.other
  target_ne : arm.target ≠ id
  entry : arm.target ≠ g.entry
  only : ∀ q, g.chart.Targets q arm.target → q = id

def Block.circled (b : Block) (arm : Arm) (label : LoopLabel) (circle : Body) : Block :=
  ⟨[.loop label b.inputStack b.outputStack (arm.toward b.body ++ [.cond b.outputStack b.outputStack
    circle []])], b.inputStack, b.outputStack, .seq arm.other⟩

theorem closeCircle_recasts (hs : g.Consistent) (h : Circular g id arm b a) (label : LoopLabel)
    (circle : Body) :
    Works (closeCircle (g.erase arm.target) id arm label circle)
      (g.Recasts id b (Block.circled b arm label circle)) := by
  refine hs.absorbs h.head h.circle h.target_ne h.entry h.only (F := fun b => { b with
    body := [.loop label b.inputStack b.outputStack
      (arm.toward b.body ++ [.cond b.outputStack b.outputStack circle []])] })
    {} (e := .seq arm.other) ?_ ?_
  · exact forall_mem_singleton.2
      ⟨h.target_ne_other.symm, hs.target h.head (mem_outputs_of_arm h.leads).2⟩
  · have hheft := heft_of_arm h.leads
    show 2 ≤ b.heft
    omega

theorem reduces_circled (hs : g.Sound ctx plain) (hg : ctx.Grows ctx') {g' : Graph}
    (harm : arm ∈ b.exit.arms) (hnew : (ctx'.regime plain).Lacks label)
    {circle : Body} (hc : Circle (ctx'.regime plain) g id b arm label circle)
    (h : g.Recasts id b (Block.circled b arm label circle) g') : Reduces plain ctx g ctx' g' := by
  have hb := h.old
  have hT := (hs.grows hg).typed
  refine .of_recasts hs hg h ⟨⟨b, hb, rfl⟩, ?_, ?_⟩
    fun hb' K => serves_seq h.consistent.closed hb' rfl fun w s s' hg hle => ?_
  · have hbody := (leads_toward hT hb harm).mono (Regime.le_inLoop hnew b.inputStack)
    exact (hbody.append (hc.typed.cond (.nil _))).loop
  · intro out b'' hout hb''
    cases mem_singleton.1 hout
    exact (hT.edges hb (mem_outputs_of_arm harm).2 hb'' :)
  · refine meets_circle hb _ ?_ hg hle
    intro u u' hgood hlt
    rw [exec_append]
    refine Meets.andThen_turn hT hs.closed hgood hnew (meets_toward hT hs.closed hb harm hgood hlt) ?_
    intro q t _ hch
    refine Meets.cond hch ?_ ?_
    · intro v v' hgood' hlt' _
      exact hc.meets K w v v' hgood' hlt'
    · intro v hreach
      rw [exec_nil]
      exact .here hreach

theorem smallCircle?_works (hs : g.Consistent) :
    Works (smallCircle? g) fun r => ∀ id arm, r = some (id, arm) →
      ∃ b, g.chart.block? id = some b ∧ arm ∈ b.exit.arms ∧
        ∃ a, Circular g id arm b a ∧ a.exit = .seq id := by
  refine hs.firstArm? fun id b arm hb harm => ?_
  obtain ⟨a, ha⟩ := hs.target hb (mem_outputs_of_arm harm).1
  split
  next hne =>
    refine (Works.andM (works_hasExit ha (.seq id)) fun _ => hs.onlyInput ha id).mono ?_
    intro r hr h
    obtain ⟨he, hentry, honly⟩ := hr h
    exact ⟨a, ⟨hb, harm, ha, hne.1, hne.2.1, hentry, honly⟩, he⟩
  next => exact Works.fails

section

variable (hT : g.chart.Typed R) (hC : g.chart.Closed) (h : Circular g id arm b a) (hnew : R.Lacks label)

include hT hC h hnew

theorem circle_of_seq (he : a.exit = .seq id) : Circle R g id b arm label (a.body ++ [.br label]) where
  typed := by
    have hin := hT.edges h.head (mem_outputs_of_arm h.leads).1 h.circle
    have hbody :=
      (((hT.blocks h.circle).seq he).fits hin (.refl _ _)).mono (Regime.le_inLoop hnew b.inputStack)
    exact (hbody.stops ((hT.edges h.circle (Exit.mem_seq he) h.head).stops_br label)).leads _
  meets := by
    intro K w s s' hgood hle
    rw [exec_append]
    refine Meets.andThen_turn hT hC hgood hnew (meets_seq hT hC h.circle he hgood hle) ?_
    intro q t _ hreach
    rw [exec_br]
    exact .here (round_of_reaches h.head hreach)

theorem circle_of_branch {back : Arm} (hback : back ∈ a.exit.arms) (htarget : back.target = id)
    (hother : back.other = arm.other) :
    Circle R g id b arm label (back.toward a.body ++ [.brIf label]) where
  typed := by
    obtain ⟨hbo, hbt⟩ := mem_outputs_of_arm hback
    obtain ⟨hat, hao⟩ := mem_outputs_of_arm h.leads
    have hin := hT.edges h.head hat h.circle
    obtain ⟨o, ho⟩ := hC.targets _ _ ⟨b, h.head, hao⟩
    have hout : R.Fits a.outputStack b.outputStack :=
      (hT.edges h.circle hbt (hother ▸ ho)).trans (hT.edges h.head hao ho).symm
    have hbody := ((leads_toward hT h.circle hback).fits hin (.refl _ _)).mono
      (Regime.le_inLoop hnew b.inputStack)
    have hjump := (hT.edges h.circle hbo (htarget ▸ h.head)).leads_brIf label
    exact hbody.append (hjump.fits (.refl _ _) hout)
  meets := by
    intro K w s s' hgood hle
    rw [exec_append]
    refine Meets.andThen_turn hT hC hgood hnew (meets_toward hT hC h.circle hback hgood hle) ?_
    intro q t _ hch
    rw [← hother]
    exact round_brIf h.head htarget hch

end

theorem makeSmallCircle_recasts (hs : g.Consistent) (ctx : Context) :
    Succeeds (makeSmallCircle g) ctx (Attempt ctx fun g' ctx' => ∃ label id arm b a,
      FreshLabel ctx label ctx' ∧ Circular g id arm b a ∧ a.exit = .seq id ∧
      g.Recasts id b (Block.circled b arm label (a.body ++ [.br label])) g') := by
  refine (works (smallCircle?_works hs) ctx).bind ?_
  rintro (_ | ⟨id, arm⟩) _ ⟨rfl, hr⟩
  · exact .pure .nothing
  obtain ⟨b, _, _, a, hcircular, he⟩ := hr id arm rfl
  refine (freshLabel_spec _).bind fun label ctx' hl => ?_
  refine (works (works_removeNode hcircular.circle) ctx').bind ?_
  rintro ⟨n, _⟩ _ ⟨rfl, rfl, rfl⟩
  refine (works (closeCircle_recasts hs hcircular label _) _).bind ?_
  rintro g' _ ⟨rfl, hrecasts⟩
  exact .pure (.success ⟨label, id, arm, b, _, hl, hcircular, he, hrecasts⟩)

theorem makeSmallCircle_works (hf : ctx.Fine) (hs : g.Sound ctx plain) :
    Succeeds (makeSmallCircle g) ctx (Reduced plain ctx g) := by
  refine (makeSmallCircle_recasts hs.toConsistent ctx).mono fun r ctx' hr => hr.mono ?_
  rintro g' ⟨label, id, arm, b, a, hl, h, he, hrecasts⟩
  have hnew := hl.fresh hf plain
  exact reduces_circled hs hl.grows h.leads hnew
    (circle_of_seq (hs.grows hl.grows).typed hs.closed h hnew he) hrecasts

theorem twoExitCircle?_works (hs : g.Consistent) :
    Works (twoExitCircle? g) fun r => ∀ id arm, r = some (id, arm) →
      ∃ b, g.chart.block? id = some b ∧ arm ∈ b.exit.arms ∧ ∃ a, Circular g id arm b a ∧
        (a.exit = .branch id arm.other ∨ a.exit = .branch arm.other id) := by
  refine hs.firstArm? fun id b arm hb harm => ?_
  obtain ⟨a, ha⟩ := hs.target hb (mem_outputs_of_arm harm).1
  refine (works_node ha).bind ?_
  rintro n ⟨_, rfl⟩
  dsimp only
  split
  next hne =>
    refine (hs.onlyInput ha id).bind fun r hr => ?_
    cases r with
    | false => exact Works.fails
    | true =>
      obtain ⟨hentry, honly⟩ := hr rfl
      refine .pure fun h => ⟨_, ⟨hb, harm, ha, hne.2.1, hne.2.2.1, hentry, honly⟩, ?_⟩
      simpa using h
  next => exact Works.fails

theorem makeTwoExitCircle_recasts (hs : g.Consistent) (ctx : Context) :
    Succeeds (makeTwoExitCircle g) ctx (Attempt ctx fun g' ctx' => ∃ label id arm b a back,
      FreshLabel ctx label ctx' ∧ Circular g id arm b a ∧
      (back ∈ a.exit.arms ∧ back.target = id ∧ back.other = arm.other) ∧
      g.Recasts id b (Block.circled b arm label (back.toward a.body ++ [.brIf label])) g') := by
  refine (works (twoExitCircle?_works hs) ctx).bind ?_
  rintro (_ | ⟨id, arm⟩) _ ⟨rfl, hr⟩
  · exact .pure .nothing
  obtain ⟨b, _, _, a, hcircular, he⟩ := hr id arm rfl
  refine (freshLabel_spec _).bind fun label ctx' hl => ?_
  refine (works (works_removeNode hcircular.circle) ctx').bind ?_
  rintro ⟨n, _⟩ _ ⟨rfl, hn, rfl⟩
  -- the arm of the circle that leads back
  obtain ⟨back, hback, hbody⟩ : ∃ back : Arm,
      (back ∈ a.exit.arms ∧ back.target = id ∧ back.other = arm.other) ∧
      back.toward a.body = if n.exit = .branch id arm.other then n.body else n.body.negate := by
    subst hn
    by_cases hexit : n.exit = .branch id arm.other
    · refine ⟨⟨id, arm.other, true⟩, ⟨?_, rfl, rfl⟩, by simp [hexit, Arm.toward]⟩
      simp [hexit, Exit.arms]
    · have hexit' : n.exit = .branch arm.other id := he.resolve_left hexit
      refine ⟨⟨id, arm.other, false⟩, ⟨?_, rfl, rfl⟩, by simp [hexit, Arm.toward]⟩
      simp [hexit', Exit.arms]
  refine (works (closeCircle_recasts hs hcircular label _) _).bind ?_
  rintro g' _ ⟨rfl, hrecasts⟩
  rw [← hbody] at hrecasts
  exact .pure (.success ⟨label, id, arm, b, a, back, hl, hcircular, hback, hrecasts⟩)

theorem makeTwoExitCircle_works (hf : ctx.Fine) (hs : g.Sound ctx plain) :
    Succeeds (makeTwoExitCircle g) ctx (Reduced plain ctx g) := by
  refine (makeTwoExitCircle_recasts hs.toConsistent ctx).mono fun r ctx' hr => hr.mono ?_
  rintro g' ⟨label, id, arm, b, a, back, hl, h, ⟨hback, htarget, hother⟩, hrecasts⟩
  have hnew := hl.fresh hf plain
  exact reduces_circled hs hl.grows h.leads hnew
    (circle_of_branch (hs.grows hl.grows).typed hs.closed h hnew hback htarget hother) hrecasts

end Structurer.Reduce
