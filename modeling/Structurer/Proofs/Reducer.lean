/-
**The reducer does its work.**

Every rule reduces sound graphs, so a reduction does from its first step to its last.  A graph that a
reduction gets stuck with has no place for any rule.
-/

import Structurer.Proofs.Passes
import Structurer.Proofs.Reach
import Structurer.Proofs.Rules.Branches
import Structurer.Proofs.Rules.Loops
import Structurer.Proofs.Rules.Redirect

namespace Structurer

open Engine Machine

variable {plain : Prop} {ctx ctx' ctx'' : Context} {g g' g'' : Graph}

/-! ### Reductions in a row -/

/-- What a reduction does to a graph. -/
structure Refined (plain : Prop) (ctx : Context) (g : Graph) (ctx' : Context) (g' : Graph) : Prop where
  grows : ctx.Grows ctx'
  sound : g'.Sound ctx' plain
  heft : ∀ id, g'.chart.heft id ≤ g.chart.heft id
  entry : ∀ {b b'}, g.chart.block? g.entry = some b → g'.chart.block? g'.entry = some b' →
    (ctx.regime plain).Fits b'.inputStack b.inputStack
  improves : plain → ∀ K, g.chart.Improves (ctx.regime plain) K g'.chart

theorem Refined.grown (hg : ctx.Grows ctx') (hs : g.Sound ctx plain) : Refined plain ctx g ctx' g where
  grows := hg
  sound := hs.grows hg
  heft _ := Nat.le_refl _
  entry hb hb' := by
    rw [hb] at hb'
    cases hb'
    exact .refl _ _
  improves _ K :=
    (Chart.improves_of_blocks (hs.grows hg).typed hs.closed hs.closed rfl Or.inl).mono (hg.regime plain)

theorem Context.Grows.strict (h : ctx.Grows ctx') :
    (ctx'.regime plain).checker.strict = (ctx.regime plain).checker.strict :=
  congrArg Settings.strictReferences h.settings

theorem Refined.good (h : Refined plain ctx g ctx' g') {s : State}
    (hg : Chart.Good (ctx.regime plain) g.chart (g.entry, s)) :
    Chart.Good (ctx'.regime plain) g'.chart (g'.entry, s) := by
  obtain ⟨b, hb, ht⟩ := hg.block
  obtain ⟨b', hb'⟩ := h.sound.closed.entry
  have hfit := h.entry hb hb'
  exact ⟨⟨b', hb', ht.of_fits hfit.symm⟩, (hg.mono (h.grows.regime plain)).proper⟩

theorem Refined.trans (h : Refined plain ctx g ctx' g') (h' : Refined plain ctx' g' ctx'' g'') :
    Refined plain ctx g ctx'' g'' where
  grows := h.grows.trans h'.grows
  sound := h'.sound
  heft id := Nat.le_trans (h'.heft id) (h.heft id)
  entry := by
    intro b b'' hb hb''
    obtain ⟨b', hb'⟩ := h.sound.closed.entry
    have hfit : (ctx'.regime plain).Fits b''.inputStack b'.inputStack := h'.entry hb' hb''
    unfold Regime.Fits at hfit
    rw [h.grows.strict] at hfit
    exact hfit.trans (h.entry hb hb')
  improves := by
    intro hp K w s s' hg hle
    exact (h.improves hp K w s s hg le_forget).le_trans
      (h'.improves hp K w s s' (h.good hg) hle)

theorem Refined.fine (h : Refined plain ctx g ctx' g') (hf : ctx.Fine) : ctx'.Fine := h.grows.fine hf

theorem Refined.size_le (h : Refined plain ctx g ctx' g') : g'.size ≤ g.size :=
  h.sound.tidy.size_le h.heft

/-! ### The rules -/

def Rule.Reduces (plain : Prop) (rule : Rule) : Prop :=
  ∀ ctx g, ctx.Fine → g.Sound ctx plain → Succeeds (rule.apply g) ctx (Reduced plain ctx g)

namespace Reduce

/-- **All rules do their work.** -/
theorem rules_reduce (plain : Prop) : ∀ rule ∈ rules, rule.Reduces plain := by
  simp only [rules, List.forall_mem_cons]
  exact ⟨fun _ _ _ hs => Attempt.of_works (foldConstantBranch_works hs),
    fun _ _ _ hs => removeTrivialBranch_works hs,
    fun _ _ _ hs => removeUnreachable_works hs,
    fun _ _ _ hs => Attempt.of_works (bypassEmptyNode_works hs),
    fun _ _ _ hs => Attempt.of_works (mergeDuplicates_works hs),
    fun _ _ _ hs => Attempt.of_get (inlineSmallReturn_works hs _),
    fun _ _ _ hs => Attempt.of_works (mergeSequence_works hs),
    fun _ _ _ hs => Attempt.of_get (joinTerminating_works hs),
    fun _ _ _ hs => Attempt.of_get (joinOneTerminating_works hs),
    fun _ _ hf hs => makeEndlessLoop_works hf hs,
    fun _ _ hf hs => makeWhileLoop_works hf hs,
    fun _ _ _ hs => Attempt.of_get (joinOptional_works hs),
    fun _ _ _ hs => Attempt.of_get (joinConverging_works hs),
    fun _ _ _ hs => Attempt.of_works (mergeTwoNodeCycle_works hs),
    fun _ _ hf hs => makeSmallCircle_works hf hs,
    fun _ _ hf hs => makeTwoExitCircle_works hf hs,
    fun _ h => absurd h List.not_mem_nil⟩

/-! ### Checks and records of steps -/

theorem checkGraph_works (hs : g.Sound ctx plain) :
    Succeeds (checkGraph g) ctx fun _ ctx' => ctx' = ctx := by
  refine (Succeeds.get ctx).bind ?_
  rintro _ _ ⟨rfl, rfl⟩
  rw [hs.inspect]
  exact .pure rfl

/-- **A sound graph passes its check after a step.** -/
theorem checkStep_works (hs : g.Sound ctx plain) (step : String) :
    Succeeds (checkStep g step) ctx fun _ ctx' => ctx.Grows ctx' := by
  refine (Succeeds.get ctx).bind ?_
  rintro _ _ ⟨rfl, rfl⟩
  split
  · refine (Succeeds.emit _).bind fun _ ctx' hg => ?_
    exact (checkGraph_works (hs.grows hg)).mono fun _ _ h => h ▸ hg
  · exact .pure (.refl _)

theorem checkError?_works (hs : g.Sound ctx plain) (step : String) :
    Succeeds (checkError? g step) ctx fun r ctx' => r = none ∧ ctx.Grows ctx' := by
  obtain ⟨_, ctx', hy, hg⟩ := checkStep_works hs step
  exact (Succeeds.of_yields (yields_observing.2 hy) (Q := fun r c => r = .ok () ∧ ctx.Grows c)
    ⟨rfl, hg⟩).bind fun r c ⟨hr, hc⟩ => by rw [hr]; exact .pure ⟨rfl, hc⟩

/-! ### Whole reductions -/

def Ended (plain : Prop) (ctx : Context) (g : Graph) (stuck : Graph → Bool → Prop) (r : Reduction)
    (ctx' : Context) : Prop :=
  match r with
  | .solved g' => Refined plain ctx g ctx' g' ∧ g'.isSolved = true
  | .stuck g' changed => Refined plain ctx g ctx' g' ∧ stuck g' changed
  | .rejected _ _ => False

theorem invariant_refined (hf : ctx.Fine) : Invariant (Refined plain ctx g) False where
  apply := by
    intro rule hrule ctx₁ g₁ href
    refine (rules_reduce plain rule hrule ctx₁ g₁ (href.fine hf) href.sound).mono fun r ctx₂ hr => ?_
    refine hr.mono fun g₂ hred => ⟨?_, ?_⟩
    · exact href.trans ⟨hred.grows, hred.sound, hred.lighter.le, hred.entry, hred.improves⟩
    · exact href.sound.tidy.weight_lt hred.sound.tidy hred.lighter
  grows := fun hg href => href.trans (.grown hg href.sound)
  check := by
    intro ctx₁ g₁ step href
    refine (checkError?_works href.sound step).mono ?_
    rintro _ ctx₂ ⟨rfl, hg⟩
    exact ⟨href.trans (.grown hg href.sound), fun hne => hne rfl⟩

end Reduce

/-- **A reduction never fails, and ends with a solved graph or one to which no rule applies.** -/
theorem reduce_works (hf : ctx.Fine) (hs : g.Sound ctx plain) :
    Succeeds (reduce g) ctx
      (Reduce.Ended plain ctx g fun g' _ => ∀ rule ∈ Reduce.rules, rule.Idle g') := by
  obtain ⟨r, ctx', hy, hstops⟩ := (Reduce.invariant_refined hf).reduce ctx (.grown (.refl _) hs)
  refine ⟨r.1, ctx', Reduce.yields_reduce hy, ?_⟩
  cases hstops with
  | solved href _ hsolved => exact ⟨href, hsolved⟩
  | stuck href _ _ hrests => exact ⟨href, fun rule hrule => (hrests rule hrule).idle⟩
  | rejected _ _ hfails => exact hfails

theorem trivialBranch?_of_idle (h : ∀ rule ∈ Reduce.rules, rule.Idle g) :
    Reduce.trivialBranch? g = none := by
  obtain ⟨ctx, ctx', hy⟩ := h ⟨"remove trivial branches", Reduce.removeTrivialBranch⟩ (by simp [Reduce.rules])
  cases hb : Reduce.trivialBranch? g with
  | none => rfl
  | some e =>
    simp only [Reduce.removeTrivialBranch, hb, yields_bind, yields_pure] at hy
    obtain ⟨_, _, _, _, _, _, h, _⟩ := hy
    cases h

theorem Graph.Consistent.forked (hs : g.Consistent) (h : Reduce.trivialBranch? g = none) :
    g.chart.Forked := by
  intro id b hb
  obtain ⟨n, hn, rfl⟩ := Graph.get?_of_block? hb
  have hmem := (Graph.get?_eq_some_iff hs.tidy.nodup).1 hn
  have hnone := List.findSome?_eq_none_iff.1 h (id, n) hmem
  dsimp only at hnone
  rw [Node.block_exit]
  cases he : n.exit with
  | seq | ret => simp [Exit.outputs]
  | branch t f =>
    rw [he] at hnone
    have hne : t ≠ f := by simpa using hnone
    simp [Exit.outputs, hne]

end Structurer
