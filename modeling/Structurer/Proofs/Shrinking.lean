/-
**Reductions come to an end.**

A rule that applies to a graph whose links are in order leaves a lighter graph whose links are in order,
and a rule that does not apply leaves everything as it was.  So no rule is applied any more once a
reduction has applied as many of them as its graph weighs, which is at most three for each node.  Nothing
is asked of the code of the graph: it need not pass its check.
-/

import Structurer.Proofs.Faithful

namespace Structurer

open Engine Fallible

variable {g : Graph}

/-! ### Graphs whose links are in order -/

namespace Graph

theorem checkLinks_eq_ok_iff : g.checkLinks = .ok () ↔ g.linkError? = none := by
  unfold checkLinks
  cases g.linkError? <;> simp

theorem Numbered.consistent (hg : g.Numbered) (hne : g.nodes ≠ []) (h : g.checkLinks = .ok ()) :
    g.Consistent := by
  have hlinks := checkLinks_eq_ok_iff.1 h
  have htidy := hg.tidy hlinks
  exact ⟨htidy, (htidy.linkError?_eq_none_iff hne).1 hlinks⟩

theorem Consistent.checkLinks (h : g.Consistent) : g.checkLinks = .ok () :=
  checkLinks_eq_ok_iff.2 ((h.tidy.linkError?_eq_none_iff h.ne_nil).2 h.closed)

theorem weight_le (g : Graph) : g.weight ≤ 3 * g.size := by
  unfold weight size
  refine (Nat.add_le_add (Nat.add_le_add_left (List.length_filter_le _ _) _)
    (List.length_filter_le _ _)).trans ?_
  omega

end Graph

/-! ### The rules -/

def Rule.Shrinks (rule : Rule) : Prop :=
  ∀ ctx g, g.Consistent → Succeeds (rule.apply g) ctx (Attempt ctx fun g' _ => g.Shrinks g')

namespace Reduce

/-- **All rules shrink the graphs they apply to.** -/
theorem rules_shrink : ∀ rule ∈ rules, rule.Shrinks := by
  simp only [rules, List.forall_mem_cons]
  refine ⟨?constant, ?trivial, ?unreachable, ?empty, ?duplicates, ?smallReturn, ?sequence, ?terminating,
    ?oneTerminating, ?endless, ?back, ?optional, ?converging, ?twoNodes, ?smallCircle, ?twoExits,
    fun _ h => absurd h List.not_mem_nil⟩
  all_goals intro ctx g hs
  case constant =>
    refine Attempt.of_works ((foldConstantBranch_recasts hs).mono fun r hr g' hg' => ?_)
    obtain ⟨_, _, _, _, _, _, _, _, _, _, h⟩ := hr g' hg'
    exact h.shrinks
  case trivial =>
    refine (removeTrivialBranch_recasts hs ctx).mono fun r _ hr => hr.mono ?_
    rintro g' ⟨_, _, _, _, _, _, _, h⟩
    exact h.shrinks
  case unreachable =>
    refine (removeUnreachable_trims hs ctx).mono fun r _ hr => hr.mono ?_
    rintro g' ⟨_, _, hgone, h⟩
    exact h.shrinks hgone
  case empty =>
    refine Attempt.of_works ((bypassEmptyNode_forwards hs).mono fun r hr g' hg' => ?_)
    obtain ⟨_, _, _, _, _, _, h⟩ := hr g' hg'
    exact h.shrinks hs
  case duplicates =>
    refine Attempt.of_works ((mergeDuplicates_forwards hs).mono fun r hr g' hg' => ?_)
    obtain ⟨_, _, _, _, _, h⟩ := hr g' hg'
    exact h.shrinks hs
  case smallReturn =>
    refine Attempt.of_get ((inlineSmallReturn_inlines hs _).mono fun r hr g' hg' => ?_)
    obtain ⟨_, _, _, h⟩ := hr g' hg'
    exact h.shrinks
  case sequence =>
    refine Attempt.of_works ((mergeSequence_merges hs).mono fun r hr g' hg' => ?_)
    obtain ⟨_, _, _, _, hrow, htidy, hchart⟩ := hr g' hg'
    exact ⟨⟨htidy, hchart ▸ hrow.closed hs.closed⟩, hchart ▸ hrow.lighter⟩
  case terminating =>
    refine Attempt.of_get ((joinTerminating_recasts hs).mono fun r hr g' hg' => ?_)
    obtain ⟨_, _, _, _, _, _, _, _, _, _, _, h⟩ := hr g' hg'
    exact h.shrinks
  case oneTerminating =>
    refine Attempt.of_get ((joinOneTerminating_recasts hs).mono fun r hr g' hg' => ?_)
    obtain ⟨_, _, _, _, _, _, _, h⟩ := hr g' hg'
    exact h.shrinks
  case endless =>
    refine (makeEndlessLoop_recasts hs ctx).mono fun r _ hr => hr.mono ?_
    rintro g' ⟨_, _, _, _, _, h⟩
    exact h.shrinks
  case back =>
    refine (makeWhileLoop_recasts hs ctx).mono fun r _ hr => hr.mono ?_
    rintro g' ⟨_, _, _, _, _, _, _, h⟩
    exact h.shrinks
  case optional =>
    refine Attempt.of_get ((joinOptional_recasts hs).mono fun r hr g' hg' => ?_)
    obtain ⟨_, _, _, _, _, _, _, h⟩ := hr g' hg'
    exact h.shrinks
  case converging =>
    refine Attempt.of_get ((joinConverging_recasts hs).mono fun r hr g' hg' => ?_)
    obtain ⟨_, _, _, _, _, _, _, _, _, _, _, _, h⟩ := hr g' hg'
    exact h.shrinks
  case twoNodes =>
    refine Attempt.of_works ((mergeTwoNodeCycle_recasts hs).mono fun r hr g' hg' => ?_)
    obtain ⟨_, _, _, _, _, _, _, h⟩ := hr g' hg'
    exact h.shrinks
  case smallCircle =>
    refine (makeSmallCircle_recasts hs ctx).mono fun r _ hr => hr.mono ?_
    rintro g' ⟨_, _, _, _, _, _, _, _, h⟩
    exact h.shrinks
  case twoExits =>
    refine (makeTwoExitCircle_recasts hs ctx).mono fun r _ hr => hr.mono ?_
    rintro g' ⟨_, _, _, _, _, _, _, _, _, h⟩
    exact h.shrinks

/-! ### Whole reductions -/

theorem invariant_consistent : Invariant (fun _ g => g.Consistent) True where
  apply := by
    intro rule hrule ctx g hs
    refine (rules_shrink rule hrule ctx g hs).mono fun r ctx' hr => hr.mono fun g' hshrinks => ?_
    exact ⟨hshrinks.consistent, hshrinks.weight_lt hs⟩
  grows := fun _ hs => hs
  check := fun step hs => (checkError?_spec _ step _).mono fun _ _ _ => ⟨hs, fun _ => trivial⟩

end Reduce

/-- **A reduction applies at most three rules for each node.**  The links of the graph are in order, and
there are no other conditions, neither on its code nor on the context.  Each rule comes to a result: if it
applies, what it leaves weighs less and has its links in order, and otherwise the graph and the context
stay as they were.  So the reduction comes to a result too, however it ends. -/
theorem reduce_linear {g : Graph} (numbered : g.Numbered) (nonempty : g.nodes ≠ [])
    (linked : g.checkLinks = .ok ()) (ctx : Context) :
    (∀ rule ∈ Reduce.rules, ∃ r ctx', Yields (rule.apply g) ctx r ctx' ∧
      (∀ g', r = some g' →
        g'.weight < g.weight ∧ g'.Numbered ∧ g'.nodes ≠ [] ∧ g'.checkLinks = .ok ()) ∧
      (r = none → ctx' = ctx ∧ ∀ fuel changed,
        Yields (Reduce.exhaust rule (fuel + 1) g changed) ctx (.stuck g changed) ctx)) ∧
    Prod.fst <$> Reduce.countedReduce g = reduce g ∧
    ∃ r k ctx', Yields (Reduce.countedReduce g) ctx (r, k) ctx' ∧ Yields (reduce g) ctx r ctx' ∧
      k ≤ 3 * g.size := by
  have hs := numbered.consistent nonempty linked
  -- the count never exceeds the weight, and a node weighs three at most
  refine ⟨fun rule hrule => ?_, Reduce.fst_countedReduce g, ?_⟩
  · obtain ⟨r, ctx', hy, hr⟩ := Reduce.rules_shrink rule hrule ctx g hs
    refine ⟨r, ctx', hy, fun g' hg' => ?_, fun hnone => ?_⟩
    · have hshrinks := hr.some g' hg'
      have hs' := hshrinks.consistent
      exact ⟨hshrinks.weight_lt hs, hs'.tidy.numbered, hs'.ne_nil, hs'.checkLinks⟩
    · have hctx := hr.none hnone
      subst hnone hctx
      exact ⟨rfl, Reduce.exhaust_of_rests hy⟩
  · obtain ⟨⟨r, k⟩, ctx', hy, hstops⟩ := Reduce.invariant_consistent.reduce ctx hs
    exact ⟨r, k, ctx', hy, Reduce.yields_reduce hy, hstops.count_le.trans g.weight_le⟩

theorem reduce_linear_knottedGraph :
    ∃ ctx r ctx', ctx.settings.allowDuplication = true ∧ knottedGraph.checkLinks = .ok () ∧
      Yields (Reduce.countedReduce knottedGraph) ctx (r, 7) ctx' ∧
      Yields (reduce knottedGraph) ctx r ctx' ∧ 7 ≤ 3 * knottedGraph.size := by
  let ctx := openContext { Settings.standard with allowDuplication := true }
  have hlinked : knottedGraph.checkLinks = .ok () := by rfl
  obtain ⟨r, k, ctx', hcounted, hreduced, hle⟩ :=
    (reduce_linear ⟨by decide, by decide⟩ (by decide) hlinked ctx).2.2
  have hrun : comesTo (Reduce.countedReduce knottedGraph) ctx (·.2 = 7) = true := by decide +kernel
  obtain ⟨p, ctx₁, hp, hseven⟩ := yields_of_comesTo hrun
  obtain ⟨rfl, rfl⟩ := hcounted.unique hp
  have hk : k = 7 := of_decide_eq_true hseven
  subst hk
  exact ⟨ctx, r, ctx', rfl, hlinked, hcounted, hreduced, hle⟩

end Structurer
