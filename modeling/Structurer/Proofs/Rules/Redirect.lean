/-
**Nodes that another one stands in for.**

A node without code, a node that is there twice, and a node in a straight line go away, and another
one stands in for them: edges to the old node lead to the new one.  While the walk over the old graph
is in the old node, the walk over the new graph is in the one that stands in for it.
-/

import Structurer.Proofs.Rules.Straight

namespace Structurer

open Engine Fallible Iteration Machine List

variable {b' bo bn b : Block} {e : Exit} {out n entry keep dup j old new : NodeId} {R : Regime}
  {G : Chart}

namespace Chart

variable {K : LocalId → Prop} {G' : Chart}

/-! ### Redirected edges -/

def reroute (G : Chart) (old new : NodeId) : Chart :=
  ((G.retarget old new).withEntry (if G.entry = old then new else G.entry)).erase old

@[simp] theorem reroute_entry : (G.reroute old new).entry = if G.entry = old then new else G.entry :=
  rfl

@[simp] theorem reroute_self : (G.reroute old new).block? old = none := erase_self

theorem reroute_of_ne (h : j ≠ old) : (G.reroute old new).block? j =
    (G.block? j).map fun b => b.withExit (b.exit.retarget old new) := erase_of_ne h

theorem reroute_cases (h : (G.reroute old new).block? j = some b') :
    j ≠ old ∧ ∃ b, G.block? j = some b ∧ b' = b.withExit (b.exit.retarget old new) := by
  have hj : j ≠ old := by
    rintro rfl
    simp at h
  rw [reroute_of_ne hj, Option.map_eq_some_iff] at h
  obtain ⟨b, hb, rfl⟩ := h
  exact ⟨hj, b, hb, rfl⟩

theorem mem_retarget (h : out ∈ (e.retarget old new).outputs) :
    (old ∈ e.outputs ∧ out = new) ∨ (out ∈ e.outputs ∧ out ≠ old) := by
  rw [Exit.retarget, Exit.outputs_map, mem_map] at h
  obtain ⟨n, hn, rfl⟩ := h
  by_cases hold : n = old
  · subst hold
    exact .inl ⟨hn, if_pos rfl⟩
  · rw [if_neg hold]
    exact .inr ⟨hn, hold⟩

theorem live_reroute (h : G.Live j) (hj : j ≠ old) : (G.reroute old new).Live j := by
  obtain ⟨b, hb⟩ := h
  exact ⟨_, by rw [reroute_of_ne hj, hb]; rfl⟩

theorem Closed.reroute (hC : G.Closed) (hne : new ≠ old) (hnew : G.Live new) :
    (G.reroute old new).Closed where
  entry := by
    rw [reroute_entry]
    split
    · exact live_reroute hnew hne
    next h => exact live_reroute hC.entry h
  targets := by
    rintro p j ⟨b', hb', hout⟩
    obtain ⟨_, b, hb, rfl⟩ := reroute_cases hb'
    rcases mem_retarget hout with ⟨_, rfl⟩ | ⟨hj, hne'⟩
    · exact live_reroute hnew hne
    · exact live_reroute (hC.targets p j ⟨b, hb, hj⟩) hne'

theorem Typed.reroute (hT : G.Typed R) (hbo : G.block? old = some bo) (hbn : G.block? new = some bn)
    (hfit : R.Fits bo.inputStack bn.inputStack) : (G.reroute old new).Typed R where
  blocks hb' := by
    obtain ⟨_, b, hb, rfl⟩ := reroute_cases hb'
    exact (hT.blocks hb).map _
  edges := by
    intro p b' out b'' hb' hout hb''
    obtain ⟨_, b, hb, rfl⟩ := reroute_cases hb'
    obtain ⟨_, c, hc, rfl⟩ := reroute_cases hb''
    rcases mem_retarget hout with ⟨hold, rfl⟩ | ⟨hj, _⟩
    · rw [hbn] at hc
      cases hc
      exact (hT.edges hb hold hbo).trans hfit
    · exact (hT.edges hb hj hc :)

theorem lighter_reroute (hold : G.Live old) : (G.reroute old new).Lighter G where
  le j := by
    cases hb' : (G.reroute old new).block? j with
    | none =>
      rw [heft_of_none hb']
      exact Nat.zero_le _
    | some b' =>
      obtain ⟨_, b, hb, rfl⟩ := reroute_cases hb'
      rw [heft_of_block hb', heft_of_block hb]
      exact Nat.le_of_eq (b.heft_map _)
  lt := ⟨old, by rw [heft_of_none reroute_self]; exact heft_pos_iff.2 hold⟩

/-! ### Walks -/

def Stand (old new : NodeId) (both : Prop) (i j : NodeId) : Prop :=
  (i = j ∧ i ≠ old ∧ (i = new → both)) ∨ (i = old ∧ j = new)

variable {both : Prop}

theorem stand_retarget (h : n = new → both) :
    Stand old new both n (if n = old then new else n) := by
  by_cases hn : n = old
  · rw [if_pos hn]
    exact .inr ⟨hn, rfl⟩
  · rw [if_neg hn]
    exact .inl ⟨rfl, hn, h⟩

theorem alike_retarget (h : new ∈ e.outputs → both) :
    Exit.Alike (Stand old new both) e (e.retarget old new) := by
  have hn : ∀ n ∈ e.outputs, n = new → both := fun n hn heq => h (heq ▸ hn)
  cases e with
  | seq n => exact .seq (stand_retarget (hn n (by simp [Exit.outputs])))
  | branch n m =>
    exact .branch (stand_retarget (hn n (by simp [Exit.outputs])))
      (stand_retarget (hn m (by simp [Exit.outputs])))
  | ret => exact .ret

/-- **A chart where one node stands in for another may take the place of the old chart.** -/
theorem improves_of_stand (both : Prop) (hT : G.Typed R) (hC : G.Closed)
    (blocks : ∀ j, j ≠ old → j ≠ new →
      G'.block? j = (G.block? j).map fun b => b.withExit (b.exit.retarget old new))
    (entry : G'.entry = if G.entry = old then new else G.entry)
    (only : both ∨ G.entry ≠ new ∧ ∀ p, p ≠ old → ¬ G.Targets p new)
    (head : ∀ w s s', Good R G (old, s) → Le (s.forget K) s' →
      Met R K G G' w (Stand old new both) (old, s) (new, s'))
    (same : both → ∀ w s s', Good R G (new, s) → Le (s.forget K) s' →
      Met R K G G' w (Stand old new both) (new, s) (new, s')) :
    Improves R K G G' := by
  intro w s s' hg hle
  have hentry : Stand old new both G.entry G'.entry := by
    rw [entry]
    refine stand_retarget fun h => ?_
    rcases only with hboth | ⟨hne, _⟩
    · exact hboth
    · exact absurd h hne
  refine walk_refines (R := R) (M := Stand old new both) ?_ ⟨hentry, hg, hle⟩
  rintro ⟨i, t⟩ ⟨j, t'⟩ ⟨hM, hgood, hlt⟩
  rcases hM with ⟨hij, hold, hnew⟩ | ⟨hi, hj⟩
  · cases (show i = j from hij)
    by_cases hi : i = new
    · subst hi
      exact same (hnew rfl) w t t' hgood hlt
    · obtain ⟨b, hb, _⟩ := hgood.block
      have hb' := blocks i hold hi
      rw [hb] at hb'
      refine met_alike hT hC hb hb' rfl (alike_retarget fun hout => ?_) hgood hlt
      rcases only with hboth | ⟨_, honly⟩
      · exact hboth
      · exact absurd ⟨b, hb, hout⟩ (honly i hold)
  · cases (show i = old from hi)
    cases (show j = new from hj)
    exact head w t t' hgood hlt

end Chart

/-! ### Rules -/

namespace Reduce

open Chart

variable {ctx : Context} {plain : Prop} {g g' : Graph} {id : NodeId}

theorem tidy_moveEntry (h : g.Tidy) (old new : NodeId) : (moveEntry g old new).Tidy := by
  unfold moveEntry
  split
  · exact ⟨h.nodup, h.issued, h.exact⟩
  · exact h

theorem chart_moveEntry : (moveEntry g old new).chart =
    g.chart.withEntry (if g.entry = old then new else g.entry) := by
  unfold moveEntry
  split <;> rfl

theorem works_reroute (hs : g.Consistent) (hold : g.chart.Live old) (new : NodeId) :
    Works (g.redirectInputs old new) fun g₁ => g₁.entry = g.entry ∧
      ((moveEntry g₁ old new).erase old).Tidy ∧
      ((moveEntry g₁ old new).erase old).chart = g.chart.reroute old new := by
  obtain ⟨g₁, hg₁, htidy, _, _, hchart⟩ := hs.tidy.redirectInputs hold new
  have hentry : g₁.entry = g.entry := congrArg Chart.entry hchart
  obtain ⟨htidy', hchart', _⟩ := (tidy_moveEntry htidy old new).erase old
  refine .of_eq hg₁ ⟨hentry, htidy', ?_⟩
  rw [hchart', chart_moveEntry, hchart, hentry]
  rfl

/-- A node went away, and another one stands in for it. -/
structure Forwarded (g : Graph) (old new : NodeId) (bo bn : Block) (g' : Graph) : Prop where
  gone : g.chart.block? old = some bo
  kept : g.chart.block? new = some bn
  ne : new ≠ old
  tidy : g'.Tidy
  chart : g'.chart = g.chart.reroute old new

theorem Forwarded.shrinks (h : Forwarded g old new bo bn g') (hs : g.Consistent) :
    g.Shrinks g' where
  consistent := ⟨h.tidy, h.chart ▸ hs.closed.reroute h.ne ⟨bn, h.kept⟩⟩
  lighter := h.chart ▸ lighter_reroute ⟨bo, h.gone⟩

theorem Forwarded.reduces (h : Forwarded g old new bo bn g') (hs : g.Sound ctx plain)
    (hfit : (ctx.regime plain).Fits bo.inputStack bn.inputStack)
    (improves : plain → ∀ K, g.chart.Improves (ctx.regime plain) K (g.chart.reroute old new)) :
    Reduces plain ctx g ctx g' where
  grows := .refl ctx
  sound := ⟨(h.shrinks hs.toConsistent).consistent, h.chart ▸ hs.typed.reroute h.gone h.kept hfit⟩
  lighter := (h.shrinks hs.toConsistent).lighter
  entry := by
    intro b b' hb hb'
    have hentry : g'.entry = if g.entry = old then new else g.entry := congrArg Chart.entry h.chart
    rw [h.chart, hentry] at hb'
    obtain ⟨_, c, hc, rfl⟩ := reroute_cases hb'
    by_cases hold : g.entry = old
    · rw [hold, h.gone] at hb
      rw [if_pos hold, h.kept] at hc
      cases hb
      cases hc
      exact hfit.symm
    · rw [if_neg hold, hb] at hc
      cases hc
      exact .refl _ _
  improves := by
    rw [h.chart]
    exact improves

/-! ### Nodes without code -/

theorem emptyNode?_eq_some (hs : g.Consistent) (h : emptyNode? g = some (old, new)) :
    ∃ b, g.chart.block? old = some b ∧ b.exit = .seq new ∧ new ≠ old ∧ b.body.hasNoCode = true := by
  obtain ⟨⟨id, n⟩, hn, hsome⟩ := exists_of_findSome?_eq_some h
  dsimp only at hsome
  cases he : n.exit with
  | branch | ret => rw [he] at hsome; cases hsome
  | seq next =>
    rw [he] at hsome
    dsimp only at hsome
    split at hsome
    next hempty =>
      cases hsome
      simp only [Bool.and_eq_true, decide_eq_true_eq] at hempty
      exact ⟨n.block, hs.block_of_mem hn, he, hempty⟩
    next => cases hsome

theorem bypassEmptyNode_forwards (hs : g.Consistent) :
    Works (bypassEmptyNode g) fun r => ∀ g', r = some g' → ∃ old new bo bn,
      bo.exit = .seq new ∧ bo.body.hasNoCode = true ∧ Forwarded g old new bo bn g' := by
  unfold bypassEmptyNode
  cases h : emptyNode? g with
  | none => exact Works.nothing
  | some e =>
    obtain ⟨old, new⟩ := e
    obtain ⟨bo, hbo, he, hne, hempty⟩ := emptyNode?_eq_some hs h
    obtain ⟨bn, hbn⟩ := hs.target hbo (Exit.mem_seq he)
    refine (works_reroute hs ⟨bo, hbo⟩ new).bind ?_
    rintro g₁ ⟨_, htidy, hchart⟩
    refine .pure fun g' h => ?_
    cases h
    exact ⟨old, new, bo, bn, he, hempty, hbo, hbn, hne, htidy, hchart⟩

theorem bypassEmptyNode_works (hs : g.Sound ctx plain) :
    Reducing plain ctx g (bypassEmptyNode g) := by
  refine (bypassEmptyNode_forwards hs.toConsistent).mono fun r hr g' hg' => ?_
  obtain ⟨old, new, bo, bn, he, hempty, h⟩ := hr g' hg'
  have hT := hs.typed
  have hthrough : (ctx.regime plain).Fits bo.inputStack bo.outputStack := by
    obtain ⟨r, hr, hst⟩ := ((hT.blocks h.gone).seq he).types
    rw [Checker.typeBody_comments hempty] at hr
    exact hst _ (Option.some.inj hr).symm
  refine h.reduces hs (hthrough.trans (hT.edges h.gone (Exit.mem_seq he) h.kept)) fun _ K => ?_
  have hsame : ∀ w s s', Good (ctx.regime plain) g.chart (new, s) → Le (s.forget K) s' →
      Met (ctx.regime plain) K g.chart (g.chart.reroute old new) w (Stand old new True) (new, s)
        (new, s') := by
    intro w s s' hg hle
    have hbn' : (g.chart.reroute old new).block? new = _ := reroute_of_ne h.ne
    rw [h.kept] at hbn'
    exact met_alike hT hs.closed h.kept hbn' rfl (alike_retarget fun _ => trivial) hg hle
  refine improves_of_stand True hT hs.closed (fun j hj _ => reroute_of_ne hj) rfl
    (.inl trivial) ?_ fun _ => hsame
  intro w s s' hg hle
  have hgo : Goes (g.chart.step K w) (old, s) (new, s.forget K) :=
    goes_seq h.gone he (exec_comments w hempty _)
  exact (hsame w _ _ (hg.goes hT hs.closed hgo) hle.forget_left).of_goes hgo

/-! ### Nodes that are there twice -/

/-- Two nodes that may be one. -/
structure Duplicates (g : Graph) (keep dup : NodeId) (b c : Block) : Prop where
  kept : g.chart.block? keep = some b
  gone : g.chart.block? dup = some c
  ne : keep ≠ dup
  entry : g.entry ≠ dup
  exit : b.exit = c.exit
  others : keep ∉ b.exit.outputs ∧ dup ∉ b.exit.outputs
  inputStack : b.inputStack = c.inputStack
  code : Body.sameCode b.body c.body = true

theorem duplicates?_eq_some {l : List (NodeId × Node)} (h : duplicates? entry l = some (keep, dup)) :
    ∃ l₁ l₂ n m, l = l₁ ++ (keep, n) :: l₂ ∧ (dup, m) ∈ l₂ ∧ dup ≠ entry ∧
      sameNode keep dup n m = true := by
  induction l with
  | nil => cases h
  | cons e l ih =>
    obtain ⟨id, n⟩ := e
    unfold duplicates? at h
    split at h
    next dupId m hfind =>
      cases h
      have hp := find?_some hfind
      simp only [Bool.and_eq_true, decide_eq_true_eq] at hp
      exact ⟨[], l, n, m, rfl, mem_of_find?_eq_some hfind, hp.1, hp.2⟩
    next =>
      obtain ⟨l₁, l₂, n', m, rfl, hm, hrest⟩ := ih h
      exact ⟨(id, n) :: l₁, l₂, n', m, rfl, hm, hrest⟩

theorem duplicates_of_eq_some (hs : g.Consistent)
    (h : duplicates? g.entry g.nodes = some (keep, dup)) : ∃ b c, Duplicates g keep dup b c := by
  obtain ⟨l₁, l₂, n, m, hnodes, hm, hentry, hsame⟩ := duplicates?_eq_some h
  have hkept : g.chart.block? keep = some n.block := hs.block_of_mem (by rw [hnodes]; simp)
  have hgone : g.chart.block? dup = some m.block := hs.block_of_mem (by rw [hnodes]; simp [hm])
  have hne : keep ≠ dup := by
    have hnd := hs.tidy.nodup
    rw [Graph.ids, hnodes, map_append, nodup_append] at hnd
    rintro rfl
    exact (nodup_cons.1 hnd.2.1).1 (mem_map.2 ⟨_, hm, rfl⟩)
  simp only [sameNode, Bool.and_eq_true, beq_iff_eq, Bool.not_eq_true', ← Bool.not_eq_true,
    Exit.targets, contains_iff_mem] at hsame
  obtain ⟨⟨⟨⟨⟨hexit, hk⟩, hd⟩, hin⟩, hout⟩, hcode⟩ := hsame
  exact ⟨n.block, m.block, hkept, hgone, hne, Ne.symm hentry, hexit, ⟨hk, hd⟩, hin, hcode⟩

theorem mergeDuplicates_forwards (hs : g.Consistent) :
    Works (mergeDuplicates g) fun r => ∀ g', r = some g' → ∃ keep dup b c,
      Duplicates g keep dup b c ∧ Forwarded g dup keep c b g' := by
  unfold mergeDuplicates
  cases h : duplicates? g.entry g.nodes with
  | none => exact Works.nothing
  | some e =>
    obtain ⟨keep, dup⟩ := e
    obtain ⟨b, c, hd⟩ := duplicates_of_eq_some hs h
    refine (works_reroute hs ⟨c, hd.gone⟩ keep).bind ?_
    rintro g₁ ⟨hentry, htidy, hchart⟩
    refine .pure fun g' h => ?_
    cases h
    have hmove : moveEntry g₁ dup keep = g₁ := by
      rw [moveEntry, hentry, if_neg hd.entry]
    rw [hmove] at htidy hchart
    exact ⟨keep, dup, b, c, hd, hd.gone, hd.kept, hd.ne, htidy, hchart⟩

theorem mergeDuplicates_works (hs : g.Sound ctx plain) :
    Reducing plain ctx g (mergeDuplicates g) := by
  refine (mergeDuplicates_forwards hs.toConsistent).mono fun r hr g' hg' => ?_
  obtain ⟨keep, dup, b, c, hd, h⟩ := hr g' hg'
  have hT := hs.typed
  have hfit : (ctx.regime plain).Fits c.inputStack b.inputStack := by
    rw [hd.inputStack]
    exact .refl _ _
  refine h.reduces hs hfit fun hplain K => ?_
  have hb' : (g.chart.reroute dup keep).block? keep = _ := reroute_of_ne hd.ne
  rw [hd.kept] at hb'
  refine improves_of_stand True hT hs.closed (fun j hj _ => reroute_of_ne hj) rfl
    (.inl trivial) ?_ ?_
  · intro w s s' hg hle
    have hcode := exec_sameCode w ((hT.blocks hd.kept).plain hplain)
      ((hT.blocks hd.gone).plain hplain) hd.code
    refine met_alike hT hs.closed hd.gone hb' hcode ?_ hg hle
    rw [Block.withExit_exit, ← hd.exit]
    exact alike_retarget fun _ => trivial
  · intro _ w s s' hg hle
    exact met_alike hT hs.closed hd.kept hb' rfl (alike_retarget fun _ => trivial) hg hle

/-! ### Straight lines -/

theorem sequence?_works (hs : g.Consistent) :
    Works (sequence? g) fun r => ∀ e, r = some e →
      ∃ b c, g.chart.block? e.1 = some b ∧ b.exit = .seq e.2 ∧ g.chart.block? e.2 = some c ∧
        e.2 ≠ e.1 ∧ g.entry ≠ e.2 ∧ ∀ p, g.chart.Targets p e.2 → p = e.1 := by
  refine Works.findSomeM? ?_
  rintro ⟨id, n⟩ hn
  have hget := (Graph.get?_eq_some_iff hs.tidy.nodup).2 hn
  dsimp only
  split
  next prev hinputs =>
    have honly : ∀ p, g.chart.Targets p id ↔ p = prev := by
      intro p
      rw [← hs.tidy.mem_inputs_iff hget]
      show p ∈ n.inputs.toList ↔ _
      rw [hinputs, mem_singleton]
    obtain ⟨b, hb, hout⟩ := (honly prev).2 rfl
    split
    next hne =>
      refine (Works.of_eq (Q := fun r => b.exit.isSeq = r) (works_isSeq hb) rfl).bind ?_
      intro r hseq
      refine .pure fun e h => ?_
      cases r with
      | false => cases h
      | true =>
        cases h
        exact ⟨b, n.block, hb, exit_of_isSeq hseq hout, Graph.block?_of_get? hget, Ne.symm hne.2,
          Ne.symm hne.1, fun p => (honly p).1⟩
    next => exact Works.nothing
  next => exact Works.nothing

def Block.after (b c : Block) : Block :=
  { c with body := b.body ++ c.body, inputStack := b.inputStack }

theorem typed_after {R : Regime} {b c : Block} (hb : R.Leads b.inputStack b.body c.inputStack)
    (hc : c.Typed R) : (Block.after b c).Typed R := by
  have hexit : (Block.after b c).exit = c.exit := rfl
  unfold Block.Typed
  rw [hexit]
  cases he : c.exit with
  | seq n => exact hb.append (hc.seq he)
  | branch n m => exact hb.append (hc.branch he)
  | ret => exact hb.stops (hc.ret he)

def merged (G : Chart) (prev curr : NodeId) (b : Block) : Chart :=
  (G.reroute prev curr).update curr (Block.after b)

section Merged

variable {prev curr : NodeId} {c : Block}

/-- Two blocks in a row, the second of which is entered only from the first. -/
structure InRow (G : Chart) (prev curr : NodeId) (b c : Block) : Prop where
  first : G.block? prev = some b
  exit : b.exit = .seq curr
  second : G.block? curr = some c
  ne : curr ≠ prev
  entry : G.entry ≠ curr
  only : ∀ p, G.Targets p curr → p = prev

section

variable (h : InRow G prev curr b c)

include h

theorem InRow.merged_self :
    (merged G prev curr b).block? curr =
    some (Block.after b (c.withExit (c.exit.retarget prev curr))) := by
  rw [merged, update_self, reroute_of_ne h.ne, h.second]
  rfl

theorem InRow.merged_cases (hb' : (merged G prev curr b).block? j = some b') :
    (j = curr ∧ b' = Block.after b (c.withExit (c.exit.retarget prev curr))) ∨
      (j ≠ curr ∧ j ≠ prev ∧ ∃ d, G.block? j = some d ∧ b' = d.withExit (d.exit.retarget prev curr)) := by
  have hcurr : (G.reroute prev curr).block? curr = some (c.withExit (c.exit.retarget prev curr)) := by
    rw [reroute_of_ne h.ne, h.second]
    rfl
  rcases update_cases hcurr hb' with hself | ⟨hj, hb'⟩
  · exact .inl hself
  · exact .inr ⟨hj, reroute_cases hb'⟩

theorem InRow.closed (hC : G.Closed) : (merged G prev curr b).Closed := by
  have hC' := hC.reroute h.ne ⟨c, h.second⟩
  have hcurr : (G.reroute prev curr).block? curr = some (c.withExit (c.exit.retarget prev curr)) := by
    rw [reroute_of_ne h.ne, h.second]
    rfl
  exact hC'.update hcurr fun out hout => hC'.targets curr out ⟨_, hcurr, hout⟩

theorem InRow.typed (hT : G.Typed R) : (merged G prev curr b).Typed R where
  blocks hb' := by
    rcases h.merged_cases hb' with ⟨_, rfl⟩ | ⟨_, _, d, hd, rfl⟩
    · have hlead := ((hT.blocks h.first).seq h.exit).fits (.refl _ _)
        (hT.edges h.first (Exit.mem_seq h.exit) h.second)
      exact typed_after hlead ((hT.blocks h.second).map _)
    · exact (hT.blocks hd).map _
  edges := by
    -- only edges that led to `prev` lead to `curr` now
    have hedge : ∀ {p d out b''}, G.block? p = some d → p ≠ prev →
        out ∈ (d.exit.retarget prev curr).outputs → (merged G prev curr b).block? out = some b'' →
        R.Fits d.outputStack b''.inputStack := by
      intro p d out b'' hd hp hout hb''
      rcases mem_retarget hout with ⟨hold, rfl⟩ | ⟨hmem, hne⟩
      · rw [h.merged_self] at hb''
        cases hb''
        exact (hT.edges hd hold h.first :)
      · rcases h.merged_cases hb'' with ⟨rfl, _⟩ | ⟨_, _, e, he, rfl⟩
        · exact absurd (h.only p ⟨d, hd, hmem⟩) hp
        · exact (hT.edges hd hmem he :)
    intro p b' out b'' hb' hout hb''
    rcases h.merged_cases hb' with ⟨rfl, rfl⟩ | ⟨_, hp, d, hd, rfl⟩
    · exact (hedge h.second h.ne hout hb'' :)
    · exact (hedge hd hp hout hb'' :)

theorem InRow.lighter : (merged G prev curr b).Lighter G where
  le j := by
    cases hb' : (merged G prev curr b).block? j with
    | none =>
      rw [heft_of_none hb']
      exact Nat.zero_le _
    | some b' =>
      rcases h.merged_cases hb' with ⟨rfl, rfl⟩ | ⟨_, _, d, hd, rfl⟩
      · rw [heft_of_block hb', heft_of_block h.second]
        exact Nat.le_of_eq (c.heft_map _)
      · rw [heft_of_block hb', heft_of_block hd]
        exact Nat.le_of_eq (d.heft_map _)
  lt := by
    have hgone : (merged G prev curr b).block? prev = none := by
      rw [merged, update_of_ne _ h.ne.symm, reroute_self]
    exact ⟨prev, by rw [heft_of_none hgone]; exact heft_pos_iff.2 ⟨b, h.first⟩⟩

theorem InRow.improves (hT : G.Typed R) (hC : G.Closed) (K : LocalId → Prop) :
    G.Improves R K (merged G prev curr b) := by
  refine improves_of_stand False hT hC ?_ rfl (.inr ⟨h.entry, ?_⟩) ?_ nofun
  · intro j hj hcurr
    rw [merged, update_of_ne _ hcurr, reroute_of_ne hj]
  · intro p hp hto
    exact hp (h.only p hto)
  · intro w s s' hg hle
    refine Met.of_body h.merged_self (N := fun p t => ∃ s₁ t₁, p = (curr, s₁) ∧ Good R G (curr, s₁) ∧
      exec w c.body (s₁.forget K) = some (.next t₁) ∧ Le t₁ t) ?_ ?_
    · show Meets _ _ _ (exec w (b.body ++ c.body) _)
      rw [exec_append]
      refine Meets.andThen (meets_seq hT hC h.first h.exit hg hle.forget_right) ?_
      rintro p t ⟨t₁, hgo, hgood, hlt⟩
      refine ((meets_body h.second (exec_le w c.body hlt)).through ?_).of_goes hgo
      rintro q u ⟨rfl, u₁, hu₁, hlu⟩ -
      exact ⟨t₁, u₁, rfl, hgood, hu₁, hlu⟩
    · rintro _ t ⟨s₁, t₁, rfl, hgood, ht₁, hlt⟩
      refine along_alike hT hC h.second hgood ht₁ (alike_retarget fun hout => ?_) hlt
      exact h.ne (h.only curr ⟨c, h.second, hout⟩)

end

end Merged

theorem mergeSequence_merges (hs : g.Consistent) :
    Works (mergeSequence g) fun r => ∀ g', r = some g' → ∃ prev curr b c,
      InRow g.chart prev curr b c ∧ g'.Tidy ∧ g'.chart = merged g.chart prev curr b := by
  refine (sequence?_works hs).bind ?_
  rintro (_ | ⟨prev, curr⟩) hr
  · exact Works.nothing
  obtain ⟨b, c, hb, he, hc, hne, hentry, honly⟩ := hr _ rfl
  obtain ⟨g₁, hg₁, htidy₁, _, _, hchart₁⟩ := hs.tidy.redirectInputs ⟨b, hb⟩ curr
  refine (Works.of_eq (Q := fun g => g = g₁) hg₁ rfl).bind ?_
  intro g₂ hg₂
  rw [← hg₂] at htidy₁ hchart₁
  have hb₁ : g₂.chart.block? prev = some (b.withExit (b.exit.retarget prev curr)) := by
    rw [hchart₁, retarget_block?, hb]
    rfl
  refine (Graph.works_removeNode hb₁).bind ?_
  rintro ⟨first, _⟩ ⟨hfirst, rfl⟩
  refine .pure fun g' h => ?_
  cases h
  obtain ⟨htidy₂, hchart₂, _⟩ := htidy₁.erase prev
  have hafter : ∀ n : Node, ({ n with body := first.body ++ n.body, inputStack := first.inputStack } :
      Node).block = Block.after b n.block := by
    intro n
    have hbody : first.body = b.body := congrArg Block.body hfirst
    have hin : first.inputStack = b.inputStack := congrArg Block.inputStack hfirst
    rw [hbody, hin]
    rfl
  have htidy₃ : ((g₂.erase prev).modify curr fun n =>
      { n with body := first.body ++ n.body, inputStack := first.inputStack }).Tidy :=
    htidy₂.modify { block := hafter }
  refine ⟨prev, curr, b, c, ⟨hb, he, hc, hne, hentry, honly⟩, tidy_moveEntry htidy₃ prev curr, ?_⟩
  have hentry : ((g₂.erase prev).modify curr fun n =>
      { n with body := first.body ++ n.body, inputStack := first.inputStack }).entry = g.entry := by
    show (g₂.erase prev).chart.entry = g.chart.entry
    rw [hchart₂, hchart₁]
    rfl
  rw [chart_moveEntry, hentry, Graph.chart_modify hafter, hchart₂, hchart₁]
  rfl

theorem mergeSequence_works (hs : g.Sound ctx plain) : Reducing plain ctx g (mergeSequence g) := by
  refine (mergeSequence_merges hs.toConsistent).mono fun r hr g' hg' => ?_
  obtain ⟨prev, curr, b, c, hrow, htidy, hchart⟩ := hr g' hg'
  exact
    { grows := .refl ctx
      sound := ⟨⟨htidy, hchart ▸ hrow.closed hs.closed⟩, hchart ▸ hrow.typed hs.typed⟩
      lighter := hchart ▸ hrow.lighter
      entry := by
        intro d d' hd hd'
        rw [hchart] at hd'
        have hto : (merged g.chart prev curr b).entry = if g.entry = prev then curr else g.entry := rfl
        have hentry' := congrArg Chart.entry hchart
        rw [hto, Graph.chart_entry] at hentry'
        rw [hentry'] at hd'
        by_cases hp : g.entry = prev
        · rw [hp, hrow.first] at hd
          rw [if_pos hp, hrow.merged_self] at hd'
          cases hd
          cases hd'
          exact .refl _ _
        · rw [if_neg hp] at hd'
          rcases hrow.merged_cases hd' with ⟨hcurr, _⟩ | ⟨_, _, e, he, rfl⟩
          · exact absurd hcurr hrow.entry
          · rw [hd] at he
            cases he
            exact .refl _ _
      improves := fun _ K => hchart ▸ hrow.improves hs.typed hs.closed K }

end Reduce

end Structurer
