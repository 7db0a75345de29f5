/-
**What can be seen of a run.**

Whoever runs code, or walks over a graph, sees how the run ends, the values it returns and the calls
it makes.  Two ways to run *behave the same* if nobody can tell them apart: in every world they end in
the same way after the same calls, or both run for ever.  A run that goes on for ever makes its calls
too.  They come to light in a world that answers only so many calls: there the run ends, at the first
call that is not answered any more.

Refinement says little about a run that gets stuck.  A walk over a typed chart does not get stuck if
every variable holds a value, and it does not even if some variables are forgotten between the blocks,
provided that no block looks at what others left there.
-/

import Structurer.Proofs.Contents

namespace Structurer

open Iteration Machine

variable {results : Nat} {ls : Locals} {s : State} {K : LocalId → Prop}

namespace Machine

/-! ### Outcomes -/

/-- What is seen of a run that ends: how it ends, and the calls it has made. -/
inductive Outcome where
  | falls (values : List Value) (calls : List Call)
  | jumps (label : LoopLabel) (calls : List Call)
  | returns (values : List Value) (calls : List Call)
  | traps (calls : List Call)
  | stuck
  deriving DecidableEq

def Outcome.calls : Outcome → List Call
  | falls _ calls => calls
  | jumps _ calls => calls
  | returns _ calls => calls
  | traps calls => calls
  | stuck => []

/-- What is seen of a run of a method with so many results.  A method returns the values on top of
the stack, and the loops around it take none. -/
def Result.outcome (results : Nat) : Result → Outcome
  | .next s => .falls s.stack s.calls
  | .jump l s => .jumps l s.calls
  | .returned s => .returns (s.stack.take results) s.calls
  | .trapped s => .traps s.calls
  | .stuck => .stuck

section Outcome

variable {r r' : Result} {x y : Option Result}

theorem Related.outcome_eq (h : Related Le r r') : r'.outcome results = r.outcome results := by
  cases h with
  | next h => simp [Result.outcome, h.stack_eq, h.calls]
  | jump l h => simp [Result.outcome, h.calls]
  | returned h => simp [Result.outcome, h.stack_eq, h.calls]
  | trapped h => simp [Result.outcome, h.calls]

theorem Refines.outcome_eq (h : Refines Le x y) (hx : x ≠ some .stuck) :
    y.map (Result.outcome results) = x.map (Result.outcome results) := by
  cases h with
  | stuck y => exact absurd rfl hx
  | forever => rfl
  | ends h => rw [Option.map_some, Option.map_some, h.outcome_eq]

end Outcome

/-! ### Calls -/

/-- The world in which only the first calls are answered, and the next one traps. -/
def World.first (w : World) (n : Nat) : World :=
  { w with
    answer := fun calls call => if calls.length < n then w.answer calls call else none
    answer_has := by
      intro calls call values h
      split at h
      · exact w.answer_has h
      · cases h }

/-- Does a run make some calls first?  In a world that answers only so many calls, a run that makes
them without end comes to its end all the same. -/
def MakesCalls (run : World → Option Result) (w : World) (calls : List Call) : Prop :=
  ∃ n r, run (w.first n) = some r ∧ calls <+: (r.outcome 0).calls

/-- Two ways to run that cannot be told apart by their ends, the values they return and the calls they
make. -/
structure SameBehaviour (results : Nat) (run run' : World → Option Result) : Prop where
  /-- They end in the same way after the same calls, or both run for ever. -/
  outcome : ∀ w, (run w).map (Result.outcome results) = (run' w).map (Result.outcome results)
  sound : ∀ w, run w ≠ some .stuck
  /-- They make the same calls, also if they run for ever. -/
  calls : ∀ w calls, MakesCalls run w calls ↔ MakesCalls run' w calls

section SameBehaviour

variable {run run' run₀ : World → Option Result}

theorem Result.calls_outcome (r : Result) (results : Nat) :
    (r.outcome results).calls = (r.outcome 0).calls := by
  cases r <;> rfl

theorem makesCalls_of_outcome
    (h : ∀ w, (run w).map (Result.outcome results) = (run' w).map (Result.outcome results))
    {w : World} {calls : List Call} (hm : MakesCalls run w calls) : MakesCalls run' w calls := by
  obtain ⟨n, r, hr, hcalls⟩ := hm
  have hn := h (w.first n)
  rw [hr, Option.map_some] at hn
  obtain ⟨r', hr', ho⟩ := Option.map_eq_some_iff.1 hn.symm
  refine ⟨n, r', hr', ?_⟩
  rw [← r'.calls_outcome results, ho, r.calls_outcome]
  exact hcalls

theorem SameBehaviour.of_outcome
    (h : ∀ w, (run w).map (Result.outcome results) = (run' w).map (Result.outcome results))
    (hs : ∀ w, run w ≠ some .stuck) : SameBehaviour results run run' :=
  ⟨h, hs, fun _ _ => ⟨makesCalls_of_outcome h, makesCalls_of_outcome fun w => (h w).symm⟩⟩

theorem SameBehaviour.of_refines (hs : ∀ w, run₀ w ≠ some .stuck)
    (h : ∀ w, Refines Le (run₀ w) (run w)) (h' : ∀ w, Refines Le (run₀ w) (run' w)) :
    SameBehaviour results run run' := by
  refine .of_outcome (fun w => ?_) fun w hw => ?_
  · rw [(h w).outcome_eq (hs w), (h' w).outcome_eq (hs w)]
  · have hr := h w
    have hne := hs w
    rw [hw] at hr
    generalize run₀ w = x at hr hne
    cases hr with
    | stuck y => exact hne rfl
    | ends hrel => cases hrel

end SameBehaviour

/-! ### Variables that hold something -/

def State.fill (ls : Locals) (s : State) : State :=
  { s with locals := fun id => (s.locals id).or ((ls.get? id).map fun var => .ofType var.valueType) }

@[simp] theorem State.fill_stack : (s.fill ls).stack = s.stack := rfl

theorem State.fill_locals (id : LocalId) : (s.fill ls).locals id =
    (s.locals id).or ((ls.get? id).map fun var => .ofType var.valueType) := rfl

theorem Fitting.holds_fill (h : Fitting ls s) : Holds ls (s.fill ls) := by
  intro id var hid
  rw [State.fill_locals, hid]
  cases hv : s.locals id with
  | none => exact ⟨_, rfl, Value.ofType_has _⟩
  | some v => exact ⟨v, rfl, h id var v hid hv⟩

theorem State.forget_fill (h : ∀ id var, ls.get? id = some var → ¬ K id → s.locals id ≠ none) :
    (s.fill ls).forget K = s.forget K := by
  unfold State.forget State.fill
  congr 1
  funext id
  by_cases hK : K id
  · simp [hK]
  · simp only [if_neg hK]
    cases hv : s.locals id with
    | some v => rfl
    | none =>
      cases hid : ls.get? id with
      | none => rfl
      | some var => exact absurd hv (h id var hid hK)

/-- The state without variables that are not known. -/
noncomputable def State.restrict (ls : Locals) (s : State) : State :=
  s.forget fun id => ls.get? id = none

theorem State.restrict_locals {id : LocalId} {var : LocalVariable} (h : ls.get? id = some var) :
    (s.restrict ls).locals id = s.locals id :=
  State.forget_locals_of_not (by rw [h]; simp)

theorem Fitting.proper_restrict (h : Fitting ls s) : Proper ls (s.restrict ls) := by
  intro id v hv
  obtain ⟨hid, hv⟩ := State.forget_locals_eq_some_iff.1 hv
  obtain ⟨var, hvar⟩ := Option.ne_none_iff_exists'.1 hid
  exact ⟨var, hvar, h id var v hvar hv⟩

end Machine

/-! ### Walks do not get stuck -/

namespace Chart

variable {R : Regime} {G : Chart} {w : World} {id : NodeId} {s' : State} {b : Block}

/-- No block looks at what others left in the variables of `K`: its code does not get stuck if they
hold nothing. -/
def Heedless (ls : Locals) (K : LocalId → Prop) (G : Chart) : Prop :=
  ∀ {id b}, G.block? id = some b → ∀ w s, Holds ls s → HasTypes s.stack b.inputStack →
    exec w b.body (s.forget K) ≠ some .stuck

open Classical in
/-- The chart without the blocks that its entry does not reach. -/
noncomputable def reached (G : Chart) : Chart :=
  ⟨fun id => if Relation.ReflTransGen G.Targets G.entry id then G.block? id else none, G.entry⟩

theorem block?_of_reached (h : G.reached.block? id = some b) : G.block? id = some b := by
  unfold reached at h
  dsimp only at h
  split at h
  · exact h
  · cases h

theorem heedless_of_unknown (hT : G.Typed R)
    (hK : ∀ id var, R.checker.locals.get? id = some var → ¬ K id) :
    G.Heedless R.checker.locals K := by
  intro id b hb w s hs ht hr
  have hheld : Holds R.checker.locals (s.forget K) := by
    intro i var hi
    rw [State.forget_locals_of_not (hK i var hi)]
    exact hs i var hi
  obtain ⟨r, htypes⟩ := (hT.blocks hb).types
  cases exec_ends (s := s.forget K) w b.body htypes (List.append_nil _).symm ht hheld.fitting hr with
  | stuck lacking => exact lacking hheld.complete

theorem heedless_nothing (hT : G.Typed R) : G.Heedless R.checker.locals fun _ => False :=
  heedless_of_unknown hT fun _ _ _ => id

/-- The places of a walk in which only variables of `K` may lack values. -/
structure Filled (R : Regime) (K : LocalId → Prop) (G : Chart) (p : NodeId × State) : Prop where
  good : Good R G p
  filled : ∀ id var, R.checker.locals.get? id = some var → ¬ K id → p.2.locals id ≠ none

theorem Filled.step (hT : G.Typed R) (hH : G.Heedless R.checker.locals K)
    (h : Filled R K G (id, s)) (hb : G.block? id = some b) :
    exec w b.body (s.forget K) ≠ some .stuck ∧ ∀ t, exec w b.body (s.forget K) = some (.next t) →
      ∀ i var, R.checker.locals.get? i = some var → ¬ K i → t.locals i ≠ none := by
  constructor
  · have := hH hb w (s.fill R.checker.locals) h.good.proper.fitting.holds_fill (h.good.types hb)
    rwa [State.forget_fill h.filled] at this
  · intro t ht i var hi hK
    obtain ⟨r, htypes⟩ := (hT.blocks hb).types
    cases exec_ends (s := s.forget K) w b.body htypes (List.append_nil _).symm (h.good.types hb)
      (h.good.proper.forget K).fitting ht with
    | next _ _ _ keeps =>
      refine keeps.defined i ?_
      rw [State.forget_locals_of_not hK]
      exact h.filled i var hi hK

/-- **Walks over typed charts do not get stuck** for want of a value. -/
theorem walk_ne_stuck (hT : G.Typed R) (hC : G.Closed) (hH : G.Heedless R.checker.locals K)
    (h : Filled R K G (id, s)) : G.walk K w id s ≠ some .stuck := by
  intro hw
  -- along the walk only variables of `K` lack values, and no block looks at those
  have goOn : ∀ p q, Filled R K G p → G.step K w p = some (.inl q) → Filled R K G q := by
    rintro ⟨i, u⟩ ⟨j, t⟩ hp hgo
    refine ⟨hp.good.goes hT hC hgo, ?_⟩
    obtain ⟨b, hb, _⟩ := hp.good.block
    rw [step_of_block hb, Option.map_eq_some_iff] at hgo
    obtain ⟨r, hr, hfollow⟩ := hgo
    obtain ⟨_, v, _, rfl, (rfl : t = _)⟩ := follow_eq_inl hfollow
    exact (hp.step hT hH hb).2 v hr
  have finish : ∀ p r, Filled R K G p → G.step K w p = some (.inr r) → r ≠ .stuck := by
    rintro ⟨i, u⟩ r hp hend rfl
    obtain ⟨b, hb, _⟩ := hp.good.block
    rw [step_of_block hb, Option.map_eq_some_iff] at hend
    obtain ⟨r, hr, hfollow⟩ := hend
    cases r with
    | stuck => exact (hp.step hT hH hb).1 hr
    | jump | returned | trapped =>
      rw [follow_of_not_next _ (by simp)] at hfollow
      cases hfollow
    | next v =>
      cases he : b.exit with
      | ret | seq =>
        rw [he] at hfollow
        cases hfollow
      | branch n m =>
        obtain ⟨c, rest, hst, _, _⟩ := hp.good.branch hT hb he hr
        rw [he] at hfollow
        simp only [follow, hst] at hfollow
        cases hfollow
  exact iter_invariant goOn finish h hw rfl

theorem follow_refines {r r' : Result} (h : Related Le r r') (e : Exit) :
    StepRefines (fun p q : NodeId × State => p.1 = q.1 ∧ Le (p.2.forget K) q.2) Le
      (some (follow e r)) (some (follow e r')) := by
  cases h with
  | jump l h =>
    rw [follow_of_not_next _ (by simp), follow_of_not_next _ (by simp)]
    exact .ends (.jump l h)
  | returned h =>
    rw [follow_of_not_next _ (by simp), follow_of_not_next _ (by simp)]
    exact .ends (.returned h)
  | trapped h =>
    rw [follow_of_not_next _ (by simp), follow_of_not_next _ (by simp)]
    exact .ends (.trapped h)
  | next h =>
    cases e with
    | seq n => exact .goes ⟨rfl, h.forget_left⟩
    | ret => exact .ends (.returned h)
    | branch n m =>
      simp only [follow, h.stack_eq]
      split
      · exact .goes ⟨rfl, (h.withStack _).forget_left⟩
      · exact .stuck _

theorem walk_remembers (h : Le (s.forget K) s') :
    Refines Le (G.walk K w id s) (G.walk (fun _ => False) w id s') := by
  refine iter_refines (Q := fun p q => p.1 = q.1 ∧ Le (p.2.forget K) q.2) ?_ ⟨rfl, h⟩
  rintro ⟨i, u⟩ ⟨_, u'⟩ ⟨rfl, hle⟩
  cases hb : G.block? i with
  | none =>
    simp only [step, hb]
    exact .stuck _
  | some b =>
    rw [step_of_block hb, step_of_block hb, State.forget_nothing]
    have hr := exec_le w b.body hle
    generalize exec w b.body (u.forget K) = x at hr
    generalize exec w b.body u' = y at hr
    cases hr with
    | forever => exact .forever
    | ends hrel => exact follow_refines hrel b.exit
    | stuck y =>
      rw [Option.map_some, follow_of_not_next _ (by simp)]
      exact .stuck _

theorem filled_restrict (hb : G.block? id = some b) (ht : HasTypes s.stack b.inputStack)
    (hs : Holds R.checker.locals s) : Filled R K G (id, s.restrict R.checker.locals) := by
  refine ⟨⟨⟨b, hb, ht⟩, hs.fitting.proper_restrict⟩, fun i var hi _ => ?_⟩
  rw [State.restrict_locals hi]
  exact hs.complete i var hi

/-- **What refines the walk over a chart behaves as the chart does.** -/
theorem sameBehaviour_of_refines (hT : G.Typed R) (hC : G.Closed)
    (hH : G.Heedless R.checker.locals K) (hb : G.block? id = some b)
    (ht : HasTypes s.stack b.inputStack) (hs : Holds R.checker.locals s) {results : Nat}
    {run : World → Option Result}
    (h : ∀ w, Refines Le (G.walk K w id (s.restrict R.checker.locals)) (run w)) :
    SameBehaviour results (fun w => G.walk (fun _ => False) w id s) run :=
  .of_refines (fun _ => walk_ne_stuck hT hC hH (filled_restrict hb ht hs))
    (fun _ => walk_remembers (le_forget.forget_left)) h

end Chart

/-- The run of a graph from a node on: each block sees all that the blocks before it left. -/
noncomputable def Graph.run (g : Graph) (w : World) (id : NodeId) (s : State) : Option Result :=
  g.chart.walk (fun _ => False) w id s

end Structurer
