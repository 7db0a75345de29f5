/-
**The passes of a reduction.**

A reduction applies rules until none applies or the graph is solved.  What the rules, the log and the
checks of steps preserve holds when it stops, and if every application of a rule lowers the weight, a
reduction stops for want of a place to apply a rule and not for want of fuel.  To say how many rules it
applies by then, this module has the reducer once more, with its applications counted.
-/

import Structurer.Proofs.Reducing

namespace Structurer

open Engine List

variable {rule : Rule} {r : Reduction × Nat} {todo : List Rule} {g : Graph} {ctx : Context}

def Rule.Rests (rule : Rule) (g : Graph) (ctx : Context) : Prop := Yields (rule.apply g) ctx none ctx

def Rule.Idle (rule : Rule) (g : Graph) : Prop :=
  ∃ ctx ctx', Yields (rule.apply g) ctx none ctx'

theorem Rule.Rests.idle {g : Graph} {ctx : Context} (h : rule.Rests g ctx) : rule.Idle g :=
  ⟨ctx, ctx, h⟩

theorem Context.inspect_logged (ctx : Context) (e : Event) (g : Graph) :
    (ctx.logged e).inspect g = ctx.inspect g := by
  unfold Context.logged
  split <;> rfl

namespace Reduce

/-! ### Records and checks of steps -/

theorem logApplied_works (name : String) (g : Graph) (ctx : Context) :
    Succeeds (logApplied name g) ctx fun _ ctx' => ctx.Grows ctx' := by
  unfold logApplied isTracing
  refine ((Succeeds.get ctx).bind (S := fun _ c => c = ctx) fun c _ h => .pure h.2).bind ?_
  rintro b _ rfl
  split
  · refine (Succeeds.get _).bind ?_
    rintro _ _ ⟨rfl, rfl⟩
    exact .emit _
  · exact .pure (.refl _)

theorem checkError?_spec (g : Graph) (step : String) (ctx : Context) :
    Succeeds (checkError? g step) ctx fun e ctx' =>
      (e = none ↔ ctx.settings.validateSteps = true → ctx.inspect g = .ok ()) ∧
        ∃ events : List Event, ctx' = events.foldl Context.logged ctx := by
  have hget : ∀ c : Context, outcome (get : EngineM Context) c = (.ok c, c) := fun _ => rfl
  cases hv : ctx.settings.validateSteps with
  | false =>
    have hstep : outcome (checkStep g step) ctx = (.ok (), ctx) := by
      rw [checkStep, outcome_bind, hget]
      simp only [hv]
      rfl
    exact ⟨none, ctx, yields_bind.2 ⟨_, _, yields_observing.2 hstep, yields_pure.2 ⟨rfl, rfl⟩⟩,
      by simp, [], rfl⟩
  | true =>
    -- the check itself is made in a context that differs in the log only
    have hstep : outcome (checkStep g step) ctx =
        outcome (checkGraph g) (ctx.logged (.checking step)) := by
      rw [checkStep, outcome_bind, hget]
      simp only [hv, if_true]
      rw [outcome_bind]
      rfl
    rw [checkGraph, outcome_bind, hget] at hstep
    simp only [Context.inspect_logged] at hstep
    cases hg : ctx.inspect g with
    | ok u =>
      rw [hg] at hstep
      exact ⟨none, _, yields_bind.2 ⟨_, _, yields_observing.2 hstep, yields_pure.2 ⟨rfl, rfl⟩⟩,
        by simp, [.checking step], rfl⟩
    | error e =>
      rcases e with e | f
      swap
      · exact absurd hg (ctx.inspect_ne_fault g f)
      rw [hg] at hstep
      exact ⟨some e, _, yields_bind.2 ⟨_, _, yields_observing.2 hstep, yields_pure.2 ⟨rfl, rfl⟩⟩,
        by simp, [.checking step, _], rfl⟩

/-! ### Counting the applications of rules -/

def countedExhaust (rule : Rule) :
    (fuel : Nat) → Graph → (changed : Bool) → (k : Nat) → EngineM (Reduction × Nat)
  | 0, g, changed, k => return (.stuck g changed, k)
  | fuel + 1, g, changed, k => do
      match ← rule.apply g with
      | none => return (.stuck g changed, k)
      | some g =>
        logApplied rule.name g
        match ← checkError? g rule.name with
        | some e => return (.rejected g e, k + 1)
        | none =>
          if g.isSolved then return (.solved g, k + 1) else countedExhaust rule fuel g true (k + 1)

def countedPass : List Rule → Graph → (changed : Bool) → (k : Nat) → EngineM (Reduction × Nat)
  | [], g, changed, k => return (.stuck g changed, k)
  | rule :: rules, g, changed, k => do
      match ← countedExhaust rule (g.weight + 1) g changed k with
      | (.stuck g changed, k) => countedPass rules g changed k
      | ended => return ended

def countedPasses : (fuel : Nat) → Graph → (changed : Bool) → (k : Nat) → EngineM (Reduction × Nat)
  | 0, g, changed, k => return (.stuck g changed, k)
  | fuel + 1, g, changed, k => do
      match ← countedPass rules g false k with
      | (.stuck g true, k) => countedPasses fuel g true k
      | (.stuck g false, k) => return (.stuck g changed, k)
      | ended => return ended

def countedReduce (g : Graph) : EngineM (Reduction × Nat) :=
  if g.isSolved then return (.solved g, 0) else countedPasses (g.weight + 1) g false 0

theorem fst_countedExhaust (rule : Rule) (fuel : Nat) (g : Graph) (changed : Bool) (k : Nat) :
    Prod.fst <$> countedExhaust rule fuel g changed k = exhaust rule fuel g changed := by
  induction fuel generalizing g changed k with
  | zero => rw [countedExhaust, exhaust, map_pure]
  | succ fuel ih =>
    rw [countedExhaust, exhaust, map_bind]
    refine bind_congr fun r => ?_
    cases r with
    | none => exact map_pure _ _
    | some g =>
      dsimp only
      rw [map_bind]
      refine bind_congr fun _ => ?_
      rw [map_bind]
      refine bind_congr fun e => ?_
      cases e with
      | some e => exact map_pure _ _
      | none =>
        dsimp only
        split
        · exact map_pure _ _
        · exact ih g true (k + 1)

theorem fst_countedPass (todo : List Rule) (g : Graph) (changed : Bool) (k : Nat) :
    Prod.fst <$> countedPass todo g changed k = pass todo g changed := by
  induction todo generalizing g changed k with
  | nil => rw [countedPass, pass, map_pure]
  | cons rule todo ih =>
    rw [countedPass, pass, ← fst_countedExhaust rule _ g changed k, map_bind, bind_map_left]
    refine bind_congr fun ⟨r, k'⟩ => ?_
    cases r with
    | solved => exact map_pure _ _
    | stuck g changed => exact ih g changed k'
    | rejected => exact map_pure _ _

theorem fst_countedPasses (fuel : Nat) (g : Graph) (changed : Bool) (k : Nat) :
    Prod.fst <$> countedPasses fuel g changed k = passes fuel g changed := by
  induction fuel generalizing g changed k with
  | zero => rw [countedPasses, passes, map_pure]
  | succ fuel ih =>
    rw [countedPasses, passes, ← fst_countedPass rules g false k, map_bind, bind_map_left]
    refine bind_congr fun ⟨r, k'⟩ => ?_
    cases r with
    | solved => exact map_pure _ _
    | stuck g changed' =>
      cases changed' with
      | false => exact map_pure _ _
      | true => exact ih g true k'
    | rejected => exact map_pure _ _

/-- **The reducer that counts is the reducer.** -/
theorem fst_countedReduce (g : Graph) : Prod.fst <$> countedReduce g = reduce g := by
  unfold countedReduce reduce
  split
  · exact map_pure _ _
  · exact fst_countedPasses _ g false 0

theorem yields_reduce {g : Graph} {ctx ctx' : Context} (h : Yields (countedReduce g) ctx r ctx') :
    Yields (reduce g) ctx r.1 ctx' := by
  rw [← fst_countedReduce]
  exact yields_map.2 ⟨r, h, rfl⟩

/-! ### Rules that do not apply -/

theorem exhaust_of_rests (h : rule.Rests g ctx) (fuel : Nat) (changed : Bool) :
    Yields (exhaust rule (fuel + 1) g changed) ctx (.stuck g changed) ctx := by
  rw [exhaust]
  exact yields_bind.2 ⟨none, ctx, h, yields_pure.2 ⟨rfl, rfl⟩⟩

theorem pass_of_rests (h : ∀ rule ∈ todo, rule.Rests g ctx) (changed : Bool) :
    Yields (pass todo g changed) ctx (.stuck g changed) ctx := by
  induction todo with
  | nil => exact yields_pure.2 ⟨rfl, rfl⟩
  | cons rule todo ih =>
    obtain ⟨hrule, hrest⟩ := forall_mem_cons.1 h
    rw [pass]
    exact yields_bind.2 ⟨_, ctx, exhaust_of_rests hrule _ changed, ih hrest⟩

theorem reduce_of_rests (h : ∀ rule ∈ rules, rule.Rests g ctx) (hun : g.isSolved = false) :
    Yields (reduce g) ctx (.stuck g false) ctx := by
  rw [reduce, if_neg (Bool.eq_false_iff.1 hun), passes]
  exact yields_bind.2 ⟨_, ctx, pass_of_rests h false, yields_pure.2 ⟨rfl, rfl⟩⟩

/-! ### What holds all along -/

/-- What holds all along a reduction: rules preserve it and lower the weight, and neither the log nor the
checks of steps have a part in it.  `mayFail` says whether a check can fail at all. -/
structure Invariant (Inv : Context → Graph → Prop) (mayFail : Prop) : Prop where
  apply : ∀ rule ∈ rules, ∀ {ctx g}, Inv ctx g → Succeeds (rule.apply g) ctx
    (Attempt ctx fun g' ctx' => Inv ctx' g' ∧ g'.weight < g.weight)
  grows : ∀ {ctx ctx' g}, ctx.Grows ctx' → Inv ctx g → Inv ctx' g
  check : ∀ {ctx g} (step : String), Inv ctx g →
    Succeeds (checkError? g step) ctx fun r ctx' => Inv ctx' g ∧ (r ≠ none → mayFail)

/-- How a reduction may end: each application of a rule is paid for with weight, and a graph that is not
solved has the property `Q`. -/
inductive Stops (Inv : Context → Graph → Prop) (mayFail : Prop) (most : Nat)
    (Q : Graph → Bool → Context → Prop) : Reduction × Nat → Context → Prop
  | solved {g k ctx} (inv : Inv ctx g) (count : k + g.weight ≤ most) (solved : g.isSolved = true) :
      Stops Inv mayFail most Q (.solved g, k) ctx
  | stuck {g changed k ctx} (inv : Inv ctx g) (count : k + g.weight ≤ most)
      (unsolved : g.isSolved = false) (stuck : Q g changed ctx) :
      Stops Inv mayFail most Q (.stuck g changed, k) ctx
  | rejected {g e k ctx} (inv : Inv ctx g) (count : k + g.weight ≤ most) (fails : mayFail) :
      Stops Inv mayFail most Q (.rejected g e, k) ctx

/-- What rules have done by the time none of them applies any more: nothing at all, or the graph got
lighter. -/
inductive Advanced (todo : List Rule) (ctx : Context) (g : Graph) (changed : Bool) :
    Graph → Bool → Context → Prop
  | rested (rests : ∀ rule ∈ todo, rule.Rests g ctx) : Advanced todo ctx g changed g changed ctx
  | lighter {g' ctx'} (less : g'.weight < g.weight) : Advanced todo ctx g changed g' true ctx'

variable {Inv : Context → Graph → Prop} {mayFail : Prop} {ctx' ctx'' : Context} {g' g'' : Graph}

theorem Stops.mono {most most' : Nat} {Q Q' : Graph → Bool → Context → Prop}
    (h : Stops Inv mayFail most Q r ctx) (hmost : most ≤ most')
    (hQ : ∀ g changed ctx, Q g changed ctx → Q' g changed ctx) :
    Stops Inv mayFail most' Q' r ctx := by
  cases h with
  | solved inv count solved => exact .solved inv (count.trans hmost) solved
  | stuck inv count unsolved stuck => exact .stuck inv (count.trans hmost) unsolved (hQ _ _ _ stuck)
  | rejected inv count fails => exact .rejected inv (count.trans hmost) fails

theorem Stops.count_le {most : Nat} {Q : Graph → Bool → Context → Prop}
    (h : Stops Inv mayFail most Q r ctx) : r.2 ≤ most := by
  cases h with
  | solved _ count _ => exact (Nat.le_add_right _ _).trans count
  | stuck _ count _ _ => exact (Nat.le_add_right _ _).trans count
  | rejected _ count _ => exact (Nat.le_add_right _ _).trans count

theorem Advanced.cons {changed changed' changed'' : Bool}
    (h : Advanced [rule] ctx g changed g' changed' ctx')
    (h' : Advanced todo ctx' g' changed' g'' changed'' ctx'') :
    Advanced (rule :: todo) ctx g changed g'' changed'' ctx'' := by
  cases h with
  | rested rests =>
    cases h' with
    | rested rests' =>
      exact .rested (forall_mem_cons.2 ⟨rests rule (mem_singleton.2 rfl), rests'⟩)
    | lighter less' => exact .lighter less'
  | lighter less =>
    cases h' with
    | rested _ => exact .lighter less
    | lighter less' => exact .lighter (less'.trans less)

namespace Invariant

theorem exhaust (hI : Invariant Inv mayFail) (hrule : rule ∈ rules) (fuel : Nat) (changed : Bool)
    (k : Nat) (hg : Inv ctx g) (hun : g.isSolved = false) (hfuel : g.weight < fuel) :
    Succeeds (countedExhaust rule fuel g changed k) ctx
      (Stops Inv mayFail (k + g.weight) (Advanced [rule] ctx g changed)) := by
  induction fuel generalizing ctx g changed k with
  | zero => omega
  | succ fuel ih =>
    refine (hI.apply rule hrule hg).yields.bind ?_
    rintro r ctx₁ ⟨hy, hr⟩
    cases r with
    | none =>
      cases hr.none rfl
      exact .pure (.stuck hg (Nat.le_refl _) hun (.rested (forall_mem_singleton.2 hy)))
    | some g₁ =>
      obtain ⟨hg₁, hlt⟩ := hr.some g₁ rfl
      refine (logApplied_works rule.name g₁ ctx₁).bind fun _ ctx₂ hgrows => ?_
      refine (hI.check rule.name (hI.grows hgrows hg₁)).bind fun e ctx₃ he => ?_
      cases e with
      | some e => exact .pure (.rejected he.1 (by omega) (he.2 (by simp)))
      | none =>
        dsimp only
        split
        next hsolved => exact .pure (.solved he.1 (by omega) hsolved)
        next hunsolved =>
          -- the rule has been paid for, and so are those that follow
          refine (ih true (k + 1) he.1 (Bool.eq_false_iff.2 hunsolved) (by omega)).mono ?_
          refine fun r ctx₄ hend => hend.mono (by omega) fun g₂ changed₂ ctx₅ hadv => ?_
          cases hadv with
          | rested _ => exact .lighter hlt
          | lighter hlt' => exact .lighter (hlt'.trans hlt)

theorem pass (hI : Invariant Inv mayFail) (htodo : ∀ rule ∈ todo, rule ∈ rules) (changed : Bool)
    (k : Nat) (hg : Inv ctx g) (hun : g.isSolved = false) :
    Succeeds (countedPass todo g changed k) ctx
      (Stops Inv mayFail (k + g.weight) (Advanced todo ctx g changed)) := by
  induction todo generalizing ctx g changed k with
  | nil => exact .pure (.stuck hg (Nat.le_refl _) hun (.rested (by simp)))
  | cons rule todo ih =>
    obtain ⟨hrule, hrest⟩ := forall_mem_cons.1 htodo
    refine (hI.exhaust hrule (g.weight + 1) changed k hg hun (Nat.lt_succ_self _)).bind ?_
    intro r ctx₁ hend
    cases hend with
    | solved inv count solved => exact .pure (.solved inv count solved)
    | rejected inv count fails => exact .pure (.rejected inv count fails)
    | stuck inv count unsolved stuck =>
      -- the other rules begin with what this one left, and with its count
      exact (ih hrest _ _ inv unsolved).mono fun r ctx₂ hend =>
        hend.mono count fun _ _ _ hadv => stuck.cons hadv

theorem passes (hI : Invariant Inv mayFail) (fuel : Nat) (changed : Bool) (k : Nat) (hg : Inv ctx g)
    (hun : g.isSolved = false) (hfuel : g.weight < fuel) :
    Succeeds (countedPasses fuel g changed k) ctx
      (Stops Inv mayFail (k + g.weight) fun g' _ ctx' => ∀ rule ∈ rules, rule.Rests g' ctx') := by
  induction fuel generalizing ctx g changed k with
  | zero => omega
  | succ fuel ih =>
    refine (hI.pass (fun _ h => h) false k hg hun).bind fun r ctx₁ hend => ?_
    cases hend with
    | solved inv count solved => exact .pure (.solved inv count solved)
    | rejected inv count fails => exact .pure (.rejected inv count fails)
    | stuck inv count unsolved stuck =>
      cases stuck with
      -- a pass that changed nothing has tried every rule on this very graph
      | rested rests => exact .pure (.stuck inv count unsolved rests)
      | lighter less =>
        exact (ih true _ inv unsolved (by omega)).mono fun r ctx₂ hend =>
          hend.mono count fun _ _ _ h => h

/-- **A reduction stops**, and no rule applies to what it leaves unsolved. -/
theorem reduce (hI : Invariant Inv mayFail) (ctx : Context) (hg : Inv ctx g) :
    Succeeds (countedReduce g) ctx
      (Stops Inv mayFail g.weight fun g' _ ctx' => ∀ rule ∈ rules, rule.Rests g' ctx') := by
  unfold countedReduce
  split
  next hsolved => exact .pure (.solved hg (by omega) hsolved)
  next hunsolved =>
    have hun := Bool.eq_false_iff.2 hunsolved
    exact (hI.passes _ false 0 hg hun (Nat.lt_succ_self _)).mono fun r ctx' hend =>
      hend.mono (by omega) fun _ _ _ h => h

end Invariant

end Reduce

end Structurer
