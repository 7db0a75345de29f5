/-
**The opposite condition.**

Code that passes the check and leaves a condition on its stack is changed at its end so that it
leaves the opposite condition.  The change is one to the condition and to nothing else: the code
passes the same check, and its run differs from the one before in the value on top of the stack
only, if it comes to its end at all.
-/

import Structurer.Proofs.Conditions
import Structurer.Proofs.FallingThrough

namespace Structurer

variable {c : Checker} {body : Body} {params results : StackType} {flow : Flow}

theorem Body.fallsThrough_negate :
    Body.fallsThrough (Body.negate body) = Body.fallsThrough body := by
  rcases negate_cases body with ⟨pre, op, op', note, rfl, -, -, hneg⟩ | ⟨pre, note, rfl, -, hneg⟩ |
    hneg
  · rw [hneg, fallsThrough_append, fallsThrough_append]
    rfl
  · rw [hneg, fallsThrough_append, fallsThrough_append]
    simp [Body.fallsThrough, eqz, Instruction.canFallThrough]
  · rw [hneg, fallsThrough_append]
    exact Bool.and_true _

/-- **The code with the opposite condition passes the same check.** -/
theorem Checker.checkBody_negate (h : c.checkBody body params (results ++ [.i32]) = .ok flow) :
    c.checkBody (Body.negate body) params (results ++ [.i32]) = .ok flow := by
  have hleads : Regime.Leads ⟨c, c.frames, False⟩ params body (results ++ [.i32]) :=
    Regime.leads_of_typeBlock (checkBody_eq_ok_iff.1 h) False.elim
  obtain ⟨flow', hflow'⟩ := hleads.negate.typeBlock
  have hneg := checkBody_eq_ok_iff.2 hflow'
  -- both ends are reached, or neither is
  have hsame : flow' = .fallsThrough ↔ flow = .fallsThrough := by
    rw [checkBody_flow hneg, checkBody_flow h, Body.fallsThrough_negate]
  have heq : flow' = flow := by
    cases flow' <;> cases flow <;> simp_all
  rw [hneg, heq]

namespace Machine

variable {w : World} {s : State} {args base : List Value}

theorem condition_of_checked (h : c.checkBody body params (results ++ [.i32]) = .ok flow)
    (stack : s.stack = args ++ base) (types : HasTypes args params) (holds : Holds c.locals s) :
    exec w body s ≠ some .stuck ∧
      ∀ t, exec w body s = some (.next t) → ∃ cond rest, t.stack = .i32 cond :: rest := by
  obtain ⟨r, hr, hflow⟩ := Option.bind_eq_some_iff.1 (Checker.checkBody_eq_ok_iff.1 h)
  refine ⟨fun hs => ?_, fun t ht => ?_⟩
  · cases exec_ends w body hr stack types holds.fitting hs with
    | stuck lacking => exact lacking holds.complete
  · cases exec_ends w body hr stack types holds.fitting ht with
    | next reached hst htypes _ =>
      cases reached
      rcases Checker.endFlow_eq_some_iff.1 hflow with ⟨hnone, -⟩ | ⟨st, hst', hfits, -⟩
      · cases hnone
      cases hst'
      obtain ⟨v, rest, rfl, hv, -⟩ := (htypes.of_fits hfits).pop
      cases v with
      | i32 cond => exact ⟨cond, rest ++ base, hst⟩
      | _ => cases hv

/-- Three runs that end in the same way: the second one leaves the opposite of the condition that
the first one leaves, the third one leaves a condition that holds if that of the first one does. -/
inductive Flipped : Option Result → Option Result → Option Result → Prop
  | next {t : State} {cond cond' cond'' : Int32} {rest : List Value}
      (stack : t.stack = .i32 cond :: rest) (opposite : cond' ≠ 0 ↔ cond = 0)
      (twice : cond'' ≠ 0 ↔ cond ≠ 0) :
      Flipped (some (.next t)) (some (.next (t.withStack (.i32 cond' :: rest))))
        (some (.next (t.withStack (.i32 cond'' :: rest))))
  | other {r : Option Result} (noEnd : ∀ t, r ≠ some (.next t)) (noStuck : r ≠ some .stuck) :
      Flipped r r r

theorem Negates.flipped {x y z : Option Result} (h : Negates x y) (h' : Negates y z)
    (hx : x ≠ some .stuck) (hy : y ≠ some .stuck) : Flipped x y z := by
  cases h with
  | stuck => exact absurd rfl hx
  | @next t cond cond' rest stack opposite =>
    cases h' with
    | next stack' opposite' =>
      cases stack'
      refine .next (t := t) stack opposite ?_
      rw [opposite', ← not_iff_not, not_not, ← opposite, ne_eq]
    | other noEnd => exact absurd rfl (noEnd _)
  | other noEnd =>
    cases h' with
    | stuck => exact absurd rfl hx
    | next => exact absurd rfl (noEnd _)
    | other => exact .other noEnd hx

/-- **Negating a condition flips it and does nothing else.**  Code that passes the check with a
condition on top of its results still does.  Its run makes the same calls, leaves the same values
in the variables and ends in the same way; if it comes to its end, the stacks are the same below
the condition, and exactly one of the conditions is zero.  Negating twice gives the condition back,
as far as it matters whether it is zero. -/
theorem negate_flips_condition {c : Checker} {body : Body} {params results : StackType}
    {flow : Flow} (checked : c.checkBody body params (results ++ [.i32]) = .ok flow) (w : World)
    {s : State} {args base : List Value} (stack : s.stack = args ++ base)
    (types : HasTypes args params) (holds : Holds c.locals s) :
    c.checkBody (Body.negate body) params (results ++ [.i32]) = .ok flow ∧
      Flipped (exec w body s) (exec w (Body.negate body) s)
        (exec w (Body.negate (Body.negate body)) s) := by
  have checked' := Checker.checkBody_negate checked
  obtain ⟨noStuck, cond⟩ := condition_of_checked (w := w) checked stack types holds
  obtain ⟨noStuck', cond'⟩ := condition_of_checked (w := w) checked' stack types holds
  exact ⟨checked', (exec_negate w body s cond).flipped (exec_negate w _ s cond') noStuck noStuck'⟩

def comparison : Body :=
  [.call "size" [] [.i64], .i64Const 3, .numeric .i64LtS, .comment "smaller"]

theorem negate_flips_condition_comparison :
    (Checker.mk .empty [] true []).checkBody comparison [.ref] ([.ref] ++ [.i32]) =
        .ok .fallsThrough ∧
      Body.negate comparison =
        [.call "size" [] [.i64], .i64Const 3, .numeric .i64GeS, .comment "smaller"] ∧
      Flipped (exec .quiet comparison ⟨[.i32 5], fun _ => none, []⟩)
        (exec .quiet (Body.negate comparison) ⟨[.i32 5], fun _ => none, []⟩)
        (exec .quiet (Body.negate (Body.negate comparison)) ⟨[.i32 5], fun _ => none, []⟩) := by
  have checked : (Checker.mk .empty [] true []).checkBody comparison [.ref] ([.ref] ++ [.i32]) =
      .ok .fallsThrough := by rfl
  have holds : Holds Locals.empty ⟨[.i32 5], fun _ => none, []⟩ := by
    intro id var hvar
    simp [Locals.empty, Locals.get?] at hvar
  have types : HasTypes [.i32 5] [.ref] := .singleton rfl
  exact ⟨checked, rfl, (negate_flips_condition checked .quiet (List.append_nil _).symm types holds).2⟩

end Machine

end Structurer
