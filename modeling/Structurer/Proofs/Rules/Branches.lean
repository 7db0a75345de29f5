/-
**Branches become conditionals.**

Each rule puts the code of an arm into the branch, as an alternative of a conditional.  The walk went
through the arm by a step of its own; the code of the branch now does both.
-/

import Structurer.Proofs.Reducing

namespace Structurer.Reduce

open Fallible Machine Chart Structurer.Graph Exit

variable {ctx : Context} {plain : Prop} {g g' : Graph} {dup : Bool} {id : NodeId} {arm : Arm}

theorem works_isRet {b : Block} (h : g.chart.block? id = some b) :
    Works (isRet g id) fun r => r = true → b.exit = .ret := by
  refine (works_node h).bind ?_
  rintro n ⟨_, rfl⟩
  exact .pure isRet_iff.1

/-! ### Both arms return -/

theorem terminating?_works (hs : g.Consistent) :
    Works (terminating? dup g) fun r => ∀ e, r = some e →
      ∃ b bt bf, g.chart.block? e.1 = some b ∧ b.exit = .branch e.2.1 e.2.2 ∧
        g.chart.block? e.2.1 = some bt ∧ bt.exit = .ret ∧
        g.chart.block? e.2.2 = some bf ∧ bf.exit = .ret := by
  refine Works.findSomeM? ?_
  rintro ⟨id, n⟩ hn
  have hb := hs.block_of_mem hn
  dsimp only
  cases he : n.exit with
  | seq next => exact Works.nothing
  | ret => exact Works.nothing
  | branch t f =>
    obtain ⟨bt, hbt⟩ := hs.target hb (mem_left he)
    obtain ⟨bf, hbf⟩ := hs.target hb (mem_right he)
    dsimp only
    split
    · exact Works.nothing
    · refine (Works.andM (P := bt.exit = .ret) (works_isRet hbt) fun _ =>
        Works.andM (P := bf.exit = .ret) (works_isRet hbf) fun _ =>
          Works.andM (works_canAbsorb hbt dup id) fun _ => works_canAbsorb hbf dup id).bind ?_
      intro r hr
      refine .pure fun e h => ?_
      cases r with
      | false => cases h
      | true =>
        cases h
        obtain ⟨ht, hf, _⟩ := hr rfl
        exact ⟨_, bt, bf, hb, he, hbt, ht, hbf, hf⟩

theorem joinTerminating_recasts (hs : g.Consistent) :
    Works (joinTerminating dup g) fun r => ∀ g', r = some g' → ∃ id t f b bt bf,
      b.exit = .branch t f ∧ g.chart.block? t = some bt ∧ bt.exit = .ret ∧
      g.chart.block? f = some bf ∧ bf.exit = .ret ∧
      g.Recasts id b ⟨b.body ++ [.cond b.outputStack [] bt.body bf.body, .unreachable], b.inputStack,
        b.outputStack, .ret⟩ g' := by
  refine (terminating?_works hs).bind ?_
  rintro (_ | ⟨id, t, f⟩) hr
  · exact Works.nothing
  obtain ⟨b, bt, bf, hb, he, hbt, het, hbf, hef⟩ := hr _ rfl
  refine (works_node hbt).bind ?_
  rintro nt ⟨_, rfl⟩
  refine (works_node hbf).bind ?_
  rintro nf ⟨_, rfl⟩
  refine (hs.recasts hb (F := fun b => { b with
    body := b.body ++ [.cond b.outputStack [] nt.body nf.body, .unreachable] })
    {} .ret nofun ?_ [t, f]).bind ?_
  · simp [Block.heft, he]
  · intro g₁ hrecasts
    refine .pure fun g' h => ?_
    cases h
    exact ⟨id, t, f, b, _, _, he, hbt, het, hbf, hef, hrecasts⟩

theorem joinTerminating_works (hs : g.Sound ctx plain) :
    Reducing plain ctx g (joinTerminating dup g) := by
  refine (joinTerminating_recasts hs.toConsistent).mono fun r hr g' hg' => ?_
  obtain ⟨id, t, f, b, bt, bf, he, hbt, het, hbf, hef, hrecasts⟩ := hr g' hg'
  have hb := hrecasts.old
  have hT := hs.typed
  refine .of_recasts hs (.refl ctx) hrecasts ⟨⟨b, hb, rfl⟩, ?_, ?_⟩
    fun _ K => serves_ret rfl fun w s s' hg hle => ?_
  · have hstops := Regime.Stops.cond
      (((hT.blocks hbt).ret het).fits (hT.edges hb (mem_left he) hbt))
      (((hT.blocks hbf).ret hef).fits (hT.edges hb (mem_right he) hbf)) []
    exact ((hT.blocks hb).branch he).stops (hstops.append fun _ => ⟨trivial, trivial⟩)
  · intro out _ hout
    cases hout
  · -- the walk goes through the branch and one of the arms
    have harm : (⟨t, f, true⟩ : Arm) ∈ b.exit.arms := by simp [he, arms]
    rw [exec_append]
    refine Meets.andThen (meets_toward hT hs.closed hb harm hg hle) fun p u hch => ?_
    show Meets _ _ _ (exec w ([.cond b.outputStack [] bt.body bf.body] ++ [.unreachable]) u)
    rw [exec_append]
    refine Meets.andThen (N := fun _ _ => False) (Meets.cond hch ?_ ?_) fun _ _ h => h.elim
    · intro q v hgood hle _
      exact meets_ret hT hbt het hgood hle _
    · rintro v ⟨q, hgo, hgood, hle⟩
      exact (meets_ret hT hbf hef hgood hle _).of_goes hgo

/-! ### One arm is absorbed -/

def Block.joined (b : Block) (arm : Arm) (a : Block) : Block :=
  ⟨arm.toward b.body ++ [.cond b.outputStack b.outputStack a.body []], b.inputStack, b.outputStack,
    .seq arm.other⟩

theorem absorbArm_recasts (hs : g.Consistent) {b a : Block} (hb : g.chart.block? id = some b)
    (harm : arm ∈ b.exit.arms) (ha : g.chart.block? arm.target = some a) :
    Works (absorbArm g id arm) (g.Recasts id b (Block.joined b arm a)) := by
  refine (works_node ha).bind ?_
  rintro n ⟨_, rfl⟩
  refine (hs.recasts hb (F := fun b => { b with
    body := arm.toward b.body ++ [.cond b.outputStack b.outputStack n.body []] })
    {} (.seq arm.other) ?_ ?_
    [arm.target]).bind fun _ hrecasts => .pure hrecasts
  · exact List.forall_mem_singleton.2 (hs.target hb (mem_outputs_of_arm harm).2)
  · have hheft := heft_of_arm harm
    show 2 < b.heft
    omega

theorem reduces_joined (hs : g.Sound ctx plain) {b a : Block} (harm : arm ∈ b.exit.arms)
    (ha : g.chart.block? arm.target = some a) (he : a.exit = .ret ∨ a.exit = .seq arm.other)
    (h : g.Recasts id b (Block.joined b arm a) g') : Reduces plain ctx g ctx g' := by
  have hb := h.old
  have hT := hs.typed
  obtain ⟨htarget, hother⟩ := mem_outputs_of_arm harm
  obtain ⟨o, ho⟩ := hs.target hb hother
  refine .of_recasts hs (.refl ctx) h ⟨⟨b, hb, rfl⟩, ?_, ?_⟩
    fun hb' K => serves_seq h.consistent.closed hb' rfl fun w s s' hg hle => ?_
  · have hin := hT.edges hb htarget ha
    have hthen : (ctx.regime plain).Leads b.outputStack a.body b.outputStack := by
      rcases he with he | he
      · exact (((hT.blocks ha).ret he).fits hin).leads _
      · have hout := hT.edges ha (mem_seq he) ho
        exact ((hT.blocks ha).seq he).fits hin (hout.trans (hT.edges hb hother ho).symm)
    exact (leads_toward hT hb harm).append (hthen.cond (.nil _))
  · intro out b'' hout hb''
    cases List.mem_singleton.1 hout
    exact (hT.edges hb hother hb'' :)
  · show Meets _ _ _ (exec w (arm.toward b.body ++ [.cond b.outputStack b.outputStack a.body []]) s')
    rw [exec_append]
    refine Meets.andThen (meets_toward hT hs.closed hb harm hg hle) fun p u hch => ?_
    refine Meets.cond hch ?_ ?_
    · intro q v hgood hle _
      rcases he with he | he
      · exact meets_ret hT ha he hgood hle _
      · exact meets_seq hT hs.closed ha he hgood hle
    · intro v hreach
      rw [exec_nil]
      exact .here hreach

theorem joinArm_recasts (hs : g.Consistent) {p : NodeId → Arm → Prop} {x : Arm → Except Fault Bool}
    [∀ id arm, Decidable (p id arm)] (E : Arm → Exit)
    (hx : ∀ arm a, g.chart.block? arm.target = some a →
      Works (x arm) fun r => r = true → a.exit = E arm) :
    Works (do
      match ← g.firstArm? fun id arm =>
        if p id arm then x arm <&&> g.canAbsorb dup arm.target id else return false with
      | none => return none
      | some (id, arm) => return some (← absorbArm g id arm)) fun r => ∀ g', r = some g' →
      ∃ id b arm a, arm ∈ b.exit.arms ∧ g.chart.block? arm.target = some a ∧ a.exit = E arm ∧
        g.Recasts id b (Block.joined b arm a) g' := by
  refine (hs.firstArm? (P := fun _ _ arm => ∃ a, g.chart.block? arm.target = some a ∧ a.exit = E arm)
    fun id b arm hb harm => ?_).bind ?_
  · obtain ⟨a, ha⟩ := hs.target hb (mem_outputs_of_arm harm).1
    split
    · exact (Works.andM (hx arm a ha) fun _ => works_canAbsorb ha dup id).mono
        fun r hr h => ⟨a, ha, (hr h).1⟩
    · exact Works.fails
  rintro (_ | ⟨id, arm⟩) hr
  · exact Works.nothing
  obtain ⟨b, hb, harm, a, ha, he⟩ := hr id arm rfl
  refine (absorbArm_recasts hs hb harm ha).bind fun g' hrecasts => .pure fun _ h => ?_
  cases h
  exact ⟨id, b, arm, a, harm, ha, he, hrecasts⟩

theorem joinOneTerminating_recasts (hs : g.Consistent) :
    Works (joinOneTerminating dup g) fun r => ∀ g', r = some g' → ∃ id b arm a,
      arm ∈ b.exit.arms ∧ g.chart.block? arm.target = some a ∧ a.exit = .ret ∧
      g.Recasts id b (Block.joined b arm a) g' :=
  joinArm_recasts hs (fun _ => .ret) fun _ _ => works_isRet

theorem joinOneTerminating_works (hs : g.Sound ctx plain) :
    Reducing plain ctx g (joinOneTerminating dup g) := by
  refine (joinOneTerminating_recasts hs.toConsistent).mono fun r hr g' hg' => ?_
  obtain ⟨id, b, arm, a, harm, ha, he, hrecasts⟩ := hr g' hg'
  exact reduces_joined hs harm ha (Or.inl he) hrecasts

theorem joinOptional_recasts (hs : g.Consistent) :
    Works (joinOptional dup g) fun r => ∀ g', r = some g' → ∃ id b arm a,
      arm ∈ b.exit.arms ∧ g.chart.block? arm.target = some a ∧ a.exit = .seq arm.other ∧
      g.Recasts id b (Block.joined b arm a) g' :=
  joinArm_recasts hs (fun arm => .seq arm.other) fun _ _ ha => works_hasExit ha _

theorem joinOptional_works (hs : g.Sound ctx plain) :
    Reducing plain ctx g (joinOptional dup g) := by
  refine (joinOptional_recasts hs.toConsistent).mono fun r hr g' hg' => ?_
  obtain ⟨id, b, arm, a, harm, ha, he, hrecasts⟩ := hr g' hg'
  exact reduces_joined hs harm ha (Or.inr he) hrecasts

/-! ### Both arms lead into one node -/

theorem diamond?_works (hs : g.Consistent) :
    Works (diamond? dup g) fun r => ∀ d, r = some d →
      ∃ b bt bf, g.chart.block? d.branch = some b ∧ b.exit = .branch d.ifTrue d.ifFalse ∧
        g.chart.block? d.ifTrue = some bt ∧ bt.exit = .seq d.join ∧
        g.chart.block? d.ifFalse = some bf ∧ bf.exit = .seq d.join := by
  refine Works.findSomeM? ?_
  rintro ⟨id, n⟩ hn
  have hb := hs.block_of_mem hn
  dsimp only
  cases he : n.exit with
  | seq next => exact Works.nothing
  | ret => exact Works.nothing
  | branch t f =>
    obtain ⟨bt, hbt⟩ := hs.target hb (mem_left he)
    obtain ⟨bf, hbf⟩ := hs.target hb (mem_right he)
    refine (works_node hbt).bind ?_
    rintro nt ⟨_, rfl⟩
    refine (works_node hbf).bind ?_
    rintro nf ⟨_, rfl⟩
    split
    next j j' het hef =>
      split
      next hj =>
        obtain ⟨rfl, _⟩ := hj
        refine (Works.andM (works_canAbsorb hbt dup id) fun _ => works_canAbsorb hbf dup id).bind ?_
        intro r _
        refine .pure fun d h => ?_
        cases r with
        | false => cases h
        | true =>
          cases h
          exact ⟨_, _, _, hb, he, hbt, het, hbf, hef⟩
      next => exact Works.nothing
    next => exact Works.nothing

theorem joinConverging_recasts (hs : g.Consistent) :
    Works (joinConverging dup g) fun r => ∀ g', r = some g' → ∃ id t f j b bt bf,
      b.exit = .branch t f ∧ g.chart.block? t = some bt ∧ bt.exit = .seq j ∧
      g.chart.block? f = some bf ∧ bf.exit = .seq j ∧
      g.Recasts id b ⟨b.body ++ [.cond b.outputStack bt.outputStack bt.body bf.body], b.inputStack,
        bt.outputStack, .seq j⟩ g' := by
  refine (diamond?_works hs).bind ?_
  rintro (_ | ⟨id, t, f, j⟩) hr
  · exact Works.nothing
  obtain ⟨b, bt, bf, hb, he, hbt, het, hbf, hef⟩ := hr _ rfl
  refine (works_node hbt).bind ?_
  rintro nt ⟨_, rfl⟩
  refine (works_node hbf).bind ?_
  rintro nf ⟨_, rfl⟩
  refine (hs.recasts hb (F := fun b => { b with
    body := b.body ++ [.cond b.outputStack nt.outputStack nt.body nf.body]
    outputStack := nt.outputStack })
    {} (.seq j) ?_ ?_ [t, f]).bind ?_
  · exact List.forall_mem_singleton.2 (hs.target hbt (mem_seq het))
  · simp [Block.heft, he]
  · intro g₁ hrecasts
    refine .pure fun g' h => ?_
    cases h
    exact ⟨id, t, f, j, b, _, _, he, hbt, het, hbf, hef, hrecasts⟩

theorem joinConverging_works (hs : g.Sound ctx plain) :
    Reducing plain ctx g (joinConverging dup g) := by
  refine (joinConverging_recasts hs.toConsistent).mono fun r hr g' hg' => ?_
  obtain ⟨id, t, f, j, b, bt, bf, he, hbt, het, hbf, hef, hrecasts⟩ := hr g' hg'
  have hb := hrecasts.old
  have hT := hs.typed
  obtain ⟨bj, hbj⟩ := hs.target hbt (mem_seq het)
  refine .of_recasts hs (.refl ctx) hrecasts ⟨⟨b, hb, rfl⟩, ?_, ?_⟩
    fun hb' K => serves_seq hrecasts.consistent.closed hb' rfl fun w s s' hg hle => ?_
  · have hthen := ((hT.blocks hbt).seq het).fits (hT.edges hb (mem_left he) hbt) (.refl _ _)
    have hjoin := (hT.edges hbf (mem_seq hef) hbj).trans (hT.edges hbt (mem_seq het) hbj).symm
    have helse := ((hT.blocks hbf).seq hef).fits (hT.edges hb (mem_right he) hbf) hjoin
    exact ((hT.blocks hb).branch he).append (hthen.cond helse)
  · intro out b'' hout hb''
    cases List.mem_singleton.1 hout
    exact (hT.edges hbt (mem_seq het) hb'' :)
  · have harm : (⟨t, f, true⟩ : Arm) ∈ b.exit.arms := by simp [he, arms]
    rw [exec_append]
    refine Meets.andThen (meets_toward hT hs.closed hb harm hg hle) fun p u hch => ?_
    refine Meets.cond hch ?_ ?_
    · intro q v hgood hle _
      exact meets_seq hT hs.closed hbt het hgood hle
    · rintro v ⟨q, hgo, hgood, hle⟩
      exact (meets_seq hT hs.closed hbf hef hgood hle).of_goes hgo

end Structurer.Reduce
