/-
**The solver solves every graph.**

Each way to solve a graph solves what it is given, or gives up without harm, and the dispatch loop never
gives up.  Whatever is taken apart comes in smaller pieces, so a bound on the depth above the number of
nodes is never reached: two such bounds lead to the same node.
-/

import Structurer.Proofs.Dispatch
import Structurer.Proofs.Finish
import Structurer.Proofs.Split
import Structurer.Proofs.Start

namespace Structurer

open Engine Machine Chart Iteration

variable {plain : Prop} {ctx ctx' : Context} {g : Graph} {n : Node}

theorem Chart.walk_of_stops {R : Regime} {K : LocalId → Prop} {G : Chart} {w : World} {id : NodeId}
    {b : Block} {s : State} (hb : G.block? id = some b) (hstops : R.Stops b.inputStack b.body)
    (hg : Good R G (id, s)) : G.walk K w id s = exec w b.body (s.forget K) := by
  obtain ⟨b', hb', ht⟩ := hg.block
  cases hb.symm.trans hb'
  have hnext : ∀ t, exec w b.body (s.forget K) ≠ some (.next t) := fun t =>
    hstops.not_next ht (hg.proper.forget K)
  have hstep := step_of_block (K := K) (w := w) (s := s) hb
  cases hr : exec w b.body (s.forget K) with
  | none => exact iter_of_none (by rw [hstep, hr]; rfl)
  | some r =>
    refine iter_of_inr ?_
    rw [hstep, hr, Option.map_some, follow_of_not_next]
    rintro t rfl
    exact hnext t hr

namespace Graph

theorem Sound.renumber (hs : g.Sound ctx plain) : g.renumber.Sound ctx plain := by
  obtain ⟨hsame, _⟩ := same_renumber g
  refine ⟨⟨hs.tidy.renumber, ?_⟩, ?_⟩
  · rw [hsame.chart]
    exact hs.closed
  · rw [hsame.chart]
    exact hs.typed

end Graph

theorem Solves.of_renumber (h : Solves plain ctx g.renumber n ctx') : Solves plain ctx g n ctx' := by
  obtain ⟨hsame, _⟩ := Graph.same_renumber g
  obtain ⟨hgrows, hexit, hinput, hstops, hrefines⟩ := h
  rw [Graph.size_renumber] at hrefines
  rw [hsame.chart] at hinput hrefines
  exact ⟨hgrows, hexit, hinput, hstops, hrefines⟩

theorem Solves.of_isSolved (hs : g.Sound ctx plain) (h : g.isSolved = true)
    (hn : g.chart.block? g.entry = some n.block) : Solves plain ctx g n ctx := by
  have hexit : n.block.exit = .ret := by
    obtain ⟨m, hm, hblock⟩ := Graph.get?_of_block? hn
    simp only [Graph.isSolved, hm, Option.map_some, Option.getD_some, Bool.and_eq_true] at h
    rw [← hblock, Node.block_exit]
    exact Exit.isRet_iff.1 h.2
  have hstops : (ctx.regime plain).Stops n.block.inputStack n.block.body := by
    have htyped := hs.typed.blocks hn
    rwa [Block.Typed, hexit] at htyped
  refine ⟨.refl ctx, hexit, fun {b} hb => ?_, hstops, fun _ _ _ K _ w s hg => ?_⟩
  · cases hn.symm.trans hb
    exact .refl _ _
  · rw [walk_of_stops hn hstops hg]
    exact exec_le w n.body (.refl _)

open LinearTree in
theorem Solves.of_tree {p : Plan} {T : Tree} {b : Block} (hf : ctx.Fine) (hs : g.Sound ctx plain)
    (hF : g.chart.Forked) (hb : g.chart.block? g.entry = some b) (B : Built ctx g [] .onStack ctx' p T) :
    Solves plain ctx g (.new (treeCode p T ++ [.unreachable]) b.inputStack []) ctx' := by
  have hv := B.grows.valid hf.valid
  refine ⟨B.grows, rfl, fun {b'} hb' => ?_, ?_, fun _ hstrict _ K hK w s hg => ?_⟩
  · cases hb.symm.trans hb'
    exact .refl _ _
  · have hstops := B.stops (R := ctx'.regime plain) hs.tidy hs.closed rfl hv
      (hs.typed.mono (B.grows.regime plain)) (by simp [Integers]) hb
    rwa [if_pos rfl] at hstops
  · have L : Layout (ctx.regime plain) K g.chart ctx'.locals :=
      ⟨hs.typed, hs.closed, hstrict, B.grows.locals, hv, hK⟩
    have S : Sited (ctx.regime plain) K ctx g [] .onStack ctx' p T :=
      ⟨B, hs.tidy, hF, L, .refl _, by simp⟩
    have hproper : Proper ctx'.locals (s.forget K) := (hg.proper.mono B.grows.locals.get).forget K
    have htree := S.meets_stacked (w := w) hg (.refl _) hproper ⟨by simp, by simp⟩
    show Refines Le _ (exec w (treeCode p T ++ [.unreachable]) (s.forget K))
    rw [exec_append]
    exact (htree.andThen fun _ _ h => h.elim).endsAs.refines

theorem Solves.earlier {ctx'' : Context} (h : Solves plain ctx' g n ctx'') (hs : g.Sound ctx plain)
    (hg : ctx.Grows ctx') : Solves plain ctx g n ctx'' :=
  .of_refined (.grown hg hs) h

/-- **Every sound graph is solved**, and bounds above its size lead to the same node. -/
theorem solveWithin_works {depth depth' : Nat} (hf : ctx.Fine) (hs : g.Sound ctx plain)
    (hd : g.size < depth) (hd' : g.size < depth') :
    Agrees (solveWithin depth g) (solveWithin depth' g) ctx (Solves plain ctx g) := by
  induction depth generalizing ctx g depth' with
  | zero => omega
  | succ depth ih =>
    obtain ⟨depth', rfl⟩ : ∃ k, depth' = k + 1 := ⟨depth' - 1, by omega⟩
    unfold solveWithin
    refine (reduce_works hf hs).agrees.bind fun r ctx₁ hended => ?_
    cases r with
    | rejected g' e => exact hended.elim
    | solved g' =>
      obtain ⟨href, hsolved⟩ := hended
      obtain ⟨b, hb⟩ := href.sound.closed.entry
      refine (Succeeds.works (Graph.works_removeNode hb) _).agrees.bind ?_
      rintro ⟨n, _⟩ ctx₁ ⟨rfl, rfl, _⟩
      exact (Succeeds.pure (.of_refined href (.of_isSolved href.sound hsolved hb))).agrees
    | stuck g' changed =>
      obtain ⟨href, hidle⟩ := hended
      have hsize := href.size_le
      have hs₁ := href.sound.renumber
      have hF : g'.renumber.chart.Forked := by
        rw [(Graph.same_renumber g').1.chart]
        exact href.sound.forked (trivialBranch?_of_idle hidle)
      have hsize₁ := Graph.size_renumber g'
      refine Agrees.mono (Q := Solves plain ctx₁ g'.renumber) ?_ fun n ctx₂ h =>
        .of_refined href h.of_renumber
      replace hf := href.fine hf
      dsimp only
      generalize g'.renumber = g₁ at hs₁ hF hsize₁ ⊢
      have hbelow : SolveBelow plain g₁.size (solveWithin depth) (solveWithin depth') := by
        intro ctx g hlt hf hs
        exact ih hf hs (by omega) (by omega)
      refine (Succeeds.emit _).agrees.bind fun _ ctx₂ hg₂ => ?_
      replace hf := hg₂.fine hf
      refine Agrees.mono (Q := Solves plain ctx₂ g₁) ?_ fun n _ h => h.earlier hs₁ hg₂
      replace hs₁ := hs₁.grows hg₂
      refine (solveLinearTree_spec hf.valid hs₁.tidy hs₁.closed hF [] .onStack).agrees.bind ?_
      rintro tree ctx₃ ⟨hg₃, hbuilt, _⟩
      cases tree with
      | some body =>
        obtain ⟨p, T, B, rfl⟩ := hbuilt body rfl
        obtain ⟨b, hb⟩ := hs₁.closed.entry
        refine (Succeeds.emit _).agrees.bind fun _ ctx₄ hg₄ => ?_
        refine (Succeeds.works (Graph.works_node hb) _).agrees.bind ?_
        rintro n ctx₄ ⟨rfl, _, rfl⟩
        exact (Succeeds.pure ((Solves.of_tree hf hs₁ hF hb B).mono hg₄)).agrees
      | none =>
        replace hf := hg₃.fine hf
        refine Agrees.mono (Q := Solves plain ctx₃ g₁) ?_ fun n _ h => h.earlier hs₁ hg₃
        replace hs₁ := hs₁.grows hg₃
        refine (extractStart_works hf hs₁ hF).agrees.bind ?_
        rintro start ctx₄ ⟨hg₄, hshort⟩
        cases start with
        | some g₂ =>
          have hshort := hshort g₂ rfl
          refine (Reduce.checkStep_works hshort.sound _).agrees.bind fun _ ctx₅ hg₅ => ?_
          have hsolve := hbelow hshort.size ((hg₄.trans hg₅).fine hf) (hshort.sound.grows hg₅)
          exact hsolve.mono fun n _ h => .of_shortened hshort (h.earlier hshort.sound hg₅)
        | none =>
          replace hf := hg₄.fine hf
          refine Agrees.mono (Q := Solves plain ctx₄ g₁) ?_ fun n _ h => h.earlier hs₁ hg₄
          replace hs₁ := hs₁.grows hg₄
          refine (extractFinish_works hf hs₁ hF hbelow).bind ?_
          rintro finish ctx₅ ⟨hg₅, hfinish⟩
          cases finish with
          | some n => exact (Succeeds.pure (hfinish n rfl)).agrees
          | none =>
            refine (Succeeds.emit _).agrees.bind fun _ ctx₆ hg₆ => ?_
            replace hg₆ := hg₅.trans hg₆
            replace hf := hg₆.fine hf
            refine Agrees.mono (Q := Solves plain ctx₆ g₁) ?_ fun n _ h => h.earlier hs₁ hg₆
            replace hs₁ := hs₁.grows hg₆
            refine (splitRegions_works hf hs₁ hbelow).bind ?_
            rintro split ctx₇ ⟨hg₇, hsplit⟩
            cases split with
            | some n => exact (Succeeds.pure (hsplit n rfl)).agrees
            | none =>
              have hlast := flatDispatch_works (hg₇.fine hf) (hs₁.grows hg₇)
              exact hlast.agrees.mono fun n _ h => h.earlier hs₁ hg₇

theorem solve_works (hf : ctx.Fine) (hs : g.Sound ctx plain) :
    Succeeds (solve g) ctx (Solves plain ctx g) :=
  (solveWithin_works hf hs (Nat.lt_succ_self _) (Nat.lt_succ_self _)).left

end Structurer
