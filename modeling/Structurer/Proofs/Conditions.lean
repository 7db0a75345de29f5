/-
**Conditions and comments.**

A branch whose arm is taken when its condition does not hold gets the opposite condition, by a change
to the last instruction of its body.  Comments do nothing and are passed over.
-/

import Structurer.Proofs.SameCode
import Structurer.Proofs.Walk

namespace Structurer

open List

variable {op op' : NumericOp}

/-! ### The last instruction -/

namespace Body

theorem lastReal?_eq_some {body : Body} {k : Nat} (h : lastReal? body = some k) :
    ∃ pre i note, body = pre ++ i :: note ∧ pre.length = k ∧ hasNoCode note = true := by
  induction body generalizing k with
  | nil => cases h
  | cons i is ih =>
    simp only [lastReal?] at h
    cases hl : lastReal? is with
    | some k' =>
      rw [hl] at h
      cases h
      obtain ⟨pre, i', note, rfl, rfl, hn⟩ := ih hl
      exact ⟨i :: pre, i', note, rfl, rfl, hn⟩
    | none =>
      have hn : hasNoCode is = true := by
        clear ih h
        induction is with
        | nil => rfl
        | cons j js ihj =>
          simp only [lastReal?] at hl
          cases hj : lastReal? js with
          | some k' => rw [hj] at hl; cases hl
          | none =>
            rw [hj] at hl
            simp only [hasNoCode, all_cons, Bool.and_eq_true]
            refine ⟨?_, ihj hj⟩
            by_contra hc
            simp [hc] at hl
      rw [hl] at h
      by_cases hi : i.isComment = true
      · simp [hi] at h
      · simp only [hi] at h
        cases h
        exact ⟨[], i, is, rfl, rfl, hn⟩

theorem getElem?_middle (pre note : Body) (i : Instruction) :
    (pre ++ i :: note)[pre.length]? = some i := by
  simp

theorem set_middle (pre note : Body) (i j : Instruction) :
    (pre ++ i :: note).set pre.length j = pre ++ j :: note := by
  simp

theorem eraseIdx_middle (pre note : Body) (i : Instruction) :
    (pre ++ i :: note).eraseIdx pre.length = pre ++ note := by
  simp [eraseIdx_append_of_length_le]

theorem eq_numeric_of_numericOp? {i : Instruction} (h : i.numericOp? = some op) :
    i = .numeric op := by
  cases i with
  | numeric op' => cases h; rfl
  | _ => cases h

theorem negate_cases (body : Body) :
    (∃ pre op op' note, body = pre ++ .numeric op :: note ∧ op.inverse = some op' ∧
        hasNoCode note = true ∧ negate body = pre ++ .numeric op' :: note) ∨
      (∃ pre note, body = pre ++ eqz :: eqz :: note ∧ hasNoCode note = true ∧
        negate body = pre ++ eqz :: note) ∨
      negate body = body ++ [eqz] := by
  unfold negate
  cases hl : lastReal? body with
  | none => exact .inr (.inr rfl)
  | some k =>
    obtain ⟨pre, i, note, rfl, rfl, hn⟩ := lastReal?_eq_some hl
    simp only [isEqzAt, getElem?_middle, Option.bind_some]
    cases hop : i.numericOp?.bind NumericOp.inverse with
    | some op' =>
      obtain ⟨op, hi, hinv⟩ := Option.bind_eq_some_iff.1 hop
      cases eq_numeric_of_numericOp? hi
      exact .inl ⟨pre, op, op', note, rfl, hinv, hn, set_middle ..⟩
    | none =>
      simp only [Bool.and_eq_true, decide_eq_true_eq, beq_iff_eq]
      split
      · next hc =>
          obtain ⟨⟨hi, hpos⟩, hprev⟩ := hc
          cases eq_numeric_of_numericOp? hi
          -- the instruction before is a test for zero as well
          rcases eq_nil_or_concat' pre with rfl | ⟨front, j, rfl⟩
          · simp at hpos
          · have hj : (front ++ [j] ++ eqz :: note)[(front ++ [j]).length - 1]? = some j := by
              simp
            have hj' : j.numericOp? = some .i32Eqz := by
              have := hprev
              rw [show Instruction.numeric NumericOp.i32Eqz = eqz from rfl, hj] at this
              simpa using this
            cases eq_numeric_of_numericOp? hj'
            refine .inr (.inl ⟨front, note, ?_, hn, ?_⟩)
            · rw [append_assoc]
              rfl
            · rw [eraseIdx_middle, append_assoc]
              rfl
      · exact .inr (.inr rfl)

end Body

/-! ### Types -/

section Types

open Checker

variable {R : Regime} {stack out : StackType} {body : Body}

theorem typeBody_append_congr {c : Checker} {loops : List LoopFrame} {a b b' : Body}
    (h : ∀ st r, c.typeBody loops st b = some r → c.typeBody loops st b' = some r)
    {r : Option StackType} (hr : c.typeBody loops stack (a ++ b) = some r) :
    c.typeBody loops stack (a ++ b') = some r := by
  rcases typeBody_append_iff.1 hr with ⟨ha, rfl⟩ | ⟨st, ha, hb⟩
  · exact typeBody_append_iff.2 (.inl ⟨ha, rfl⟩)
  · exact typeBody_append_iff.2 (.inr ⟨st, ha, h st r hb⟩)

theorem NumericOp.inverse_types (h : op.inverse = some op') :
    op'.inputs = op.inputs ∧ op'.output = op.output := by
  cases op <;> simp only [NumericOp.inverse, Option.some.injEq, reduceCtorEq] at h <;> subst h <;>
    exact ⟨rfl, rfl⟩

theorem Regime.Leads.negate (h : R.Leads stack body (out ++ [.i32])) :
    R.Leads stack (Body.negate body) (out ++ [.i32]) := by
  rcases Body.negate_cases body with ⟨pre, op, op', note, rfl, hinv, _, hneg⟩ |
    ⟨pre, note, rfl, _, hneg⟩ | hneg
  · obtain ⟨hin, hout⟩ := NumericOp.inverse_types hinv
    rw [hneg]
    obtain ⟨r, hr, hst⟩ := h.types
    refine ⟨⟨r, typeBody_append_congr ?_ hr, hst⟩, fun hz => ?_⟩
    · intro st r' hr'
      simp only [typeBody, typeInstruction, stepSimple, hin, hout] at hr' ⊢
      exact hr'
    · simpa only [Body.plain_append, Body.Plain, Instruction.Plain] using h.plain hz
  · rw [hneg]
    obtain ⟨r, hr, hst⟩ := h.types
    refine ⟨⟨r, typeBody_append_congr ?_ hr, hst⟩, fun hz => ?_⟩
    · intro st r' hr'
      rcases typeBody_cons_iff.1 hr' with ⟨hi, _⟩ | ⟨st', hi, hrest⟩
      · simp [Body.eqz, typeInstruction, stepSimple, Fallible.toOption_eq_some_iff,
          Fallible.bind_eq_ok_iff, pure, Except.pure] at hi
      · rw [typeBody_cons_of_some hi]
        -- the first test leaves an integer, so the second one leaves the stack as it is
        have hpop : ∃ rest, st' = rest ++ [.i32] := by
          obtain ⟨rest, _, hr⟩ := Fallible.bind_eq_ok_iff.1 (Fallible.toOption_eq_some_iff.1 hi)
          exact ⟨rest, by cases hr; rfl⟩
        obtain ⟨rest, rfl⟩ := hpop
        have hsecond : R.checker.typeInstruction R.loops (rest ++ [.i32]) Body.eqz =
            some (some (rest ++ [.i32])) :=
          Fallible.toOption_eq_some_iff.2 (Fallible.bind_eq_ok_iff.2
            ⟨rest, pop_eq_ok_iff.2 ⟨[.i32], rfl, .refl _ _⟩, rfl⟩)
        rwa [typeBody_cons_of_some hsecond] at hrest
    · simpa [Body.plain_append, Body.Plain, Instruction.Plain, Body.eqz] using h.plain hz
  · rw [hneg]
    exact h.append (Regime.leads_numeric .i32Eqz)

end Types

/-! ### Runs -/

namespace Machine

variable {w : World} {s t : State} {body : Body} {args : List Value} {v : Value}

theorem exec_last {pre note : Body} (i : Instruction) (hn : note.hasNoCode = true) :
    exec w (pre ++ i :: note) s = andThen (exec w pre s) (execInstruction w i) := by
  have hnote : exec w note = fun s => some (.next s) := funext fun s => exec_comments w hn s
  rw [exec_append]
  congr 1
  funext t
  rw [exec_cons, hnote, andThen_some_next]

theorem evalOp_i32_args (hin : op.inputs = [.i32, .i32]) (hv : evalOp w op args = some v) :
    ∃ a b, args = [.i32 a, .i32 b] := by
  unfold evalOp at hv
  split at hv <;> first | exact ⟨_, _, rfl⟩ | cases hin | cases hv

theorem evalOp_i64_args (hin : op.inputs = [.i64, .i64]) (hv : evalOp w op args = some v) :
    ∃ a b, args = [.i64 a, .i64 b] := by
  unfold evalOp at hv
  split at hv <;> first | exact ⟨_, _, rfl⟩ | cases hin | cases hv

theorem evalOp_inverse (h : op.inverse = some op') (hv : evalOp w op args = some v) :
    ∃ p : Bool, v = .ofBool p ∧ evalOp w op' args = some (.ofBool !p) := by
  have opposite : ∀ {p q : Prop} [Decidable p] [Decidable q], (q ↔ ¬ p) →
      some (Value.ofBool p) = some v →
      ∃ p' : Bool, v = .ofBool p' ∧ some (Value.ofBool q) = some (.ofBool !p') := by
    intro p q _ _ hq hp
    cases hp
    refine ⟨decide p, rfl, ?_⟩
    rw [decide_eq_decide.2 hq, decide_not]
  cases op with
  | i32Eq | i32Ne | i32LtS | i32GeS | i32LeS | i32GtS =>
    obtain ⟨a, b, rfl⟩ := evalOp_i32_args rfl hv
    cases h
    refine opposite ?_ hv
    first | exact Iff.rfl | exact not_not.symm | exact Int32.not_lt.symm | exact Int32.not_le.symm
  | i64Eq | i64Ne | i64LtS | i64GeS | i64LeS | i64GtS =>
    obtain ⟨a, b, rfl⟩ := evalOp_i64_args rfl hv
    cases h
    refine opposite ?_ hv
    first | exact Iff.rfl | exact not_not.symm | exact Int64.not_lt.symm | exact Int64.not_le.symm
  | _ => cases h

/-- The second run leaves the opposite of the condition that the first one leaves, and all else
alike. -/
inductive Negates : Option Result → Option Result → Prop
  | stuck (y : Option Result) : Negates (some .stuck) y
  | next {t : State} {c c' : Int32} {rest : List Value} (stack : t.stack = .i32 c :: rest)
      (opposite : c' ≠ 0 ↔ c = 0) :
      Negates (some (.next t)) (some (.next (t.withStack (.i32 c' :: rest))))
  | other {r : Option Result} (h : ∀ t, r ≠ some (.next t)) : Negates r r

theorem Negates.andThen {x : Option Result} {k k' : State → Option Result}
    (h : ∀ t, x = some (.next t) → Negates (k t) (k' t)) :
    Negates (Machine.andThen x k) (Machine.andThen x k') := by
  rcases x with _ | (t | _ | _ | _ | _)
  · exact .other (by simp)
  · exact h t rfl
  · exact .other (by simp)
  · exact .other (by simp)
  · exact .other (by simp)
  · exact .other (by simp)

theorem execInstruction_eqz {c : Int32} {rest : List Value} (hs : s.stack = .i32 c :: rest) :
    execInstruction w Body.eqz s =
      some (.next (s.withStack (.i32 (if c = 0 then 1 else 0) :: rest))) := by
  simp [Body.eqz, execInstruction, simple, NumericOp.inputs, hs, evalOp, Value.ofBool]

theorem execInstruction_eqz_other (hs : ∀ c rest, s.stack ≠ .i32 c :: rest) :
    execInstruction w Body.eqz s = some .stuck := by
  cases hst : s.stack with
  | nil => simp [Body.eqz, execInstruction, simple, NumericOp.inputs, hst, evalOp]
  | cons v rest =>
    cases v with
    | i32 c => exact absurd hst (hs c rest)
    | _ => simp [Body.eqz, execInstruction, simple, NumericOp.inputs, hst, evalOp]

/-- **The body with the opposite condition leaves the opposite condition.** -/
theorem exec_negate (w : World) (body : Body) (s : State)
    (hc : ∀ t, exec w body s = some (.next t) → ∃ c rest, t.stack = .i32 c :: rest) :
    Negates (exec w body s) (exec w (Body.negate body) s) := by
  rcases Body.negate_cases body with ⟨pre, op, op', note, rfl, hinv, hn, hneg⟩ |
    ⟨pre, note, rfl, hn, hneg⟩ | hneg
  · rw [hneg, exec_last _ hn, exec_last _ hn]
    refine .andThen fun t _ => ?_
    obtain ⟨hin, _⟩ := NumericOp.inverse_types hinv
    simp only [execInstruction, simple, hin]
    cases hv : evalOp w op (t.stack.take op.inputs.length).reverse with
    | none => exact .stuck _
    | some v =>
      obtain ⟨p, rfl, hv'⟩ := evalOp_inverse hinv hv
      rw [hv']
      refine Negates.next (t := t.withStack (.ofBool p :: t.stack.drop op.inputs.length)) rfl ?_
      cases p <;> simp
  · have hnote : Body.hasNoCode note = true := hn
    rw [hneg, exec_last _ hn, show pre ++ Body.eqz :: Body.eqz :: note =
      (pre ++ [Body.eqz]) ++ Body.eqz :: note by simp, exec_last _ hnote, exec_append, andThen_assoc]
    refine .andThen fun t _ => ?_
    rw [exec_singleton]
    by_cases ht : ∃ c rest, t.stack = .i32 c :: rest
    · obtain ⟨c, rest, hst⟩ := ht
      rw [execInstruction_eqz hst, andThen_next, execInstruction_eqz rfl]
      refine .next (t := t.withStack _) rfl ?_
      by_cases hc0 : c = 0 <;> simp [hc0]
    · rw [execInstruction_eqz_other fun c rest h => ht ⟨c, rest, h⟩]
      exact .stuck _
  · rw [hneg, exec_append]
    cases hx : exec w body s with
    | none => exact .other (by simp)
    | some r =>
      cases r with
      | next t =>
        obtain ⟨c, rest, hst⟩ := hc t hx
        rw [andThen_next, exec_singleton, execInstruction_eqz hst]
        refine .next hst ?_
        by_cases hc0 : c = 0 <;> simp [hc0]
      | jump | returned | trapped | stuck => exact .other (by simp)

/-! ### Bodies of the same code -/

theorem eq_of_equal {f : Number.Format} {a b : Number.Binary f} (ha : a.Plain) (hb : b.Plain)
    (h : a.equal b = true) : a = b := by
  cases a with
  | nan => cases b <;> cases h
  | infinite n =>
    cases b with
    | infinite n' =>
      simp only [Number.Binary.equal, beq_iff_eq] at h
      rw [h]
    | _ => cases h
  | finite n k e =>
    cases b with
    | finite n' k' e' =>
      simp only [Number.Binary.equal, Bool.or_eq_true, Bool.and_eq_true, beq_iff_eq] at h
      rcases h with ⟨rfl, rfl⟩ | ⟨⟨rfl, rfl⟩, rfl⟩
      · -- both are zero, which is written in one way only
        obtain ⟨rfl, rfl⟩ := ha rfl
        obtain ⟨rfl, rfl⟩ := hb rfl
        rfl
      · rfl
    | _ => cases h

theorem Body.eq_steps :
    SameSteps (fun a b => a.Plain → b.Plain → a = b)
      (fun a b => Body.Plain a → Body.Plain b → a = b)
      (fun a b => Body.CasesPlain a → Body.CasesPlain b → a = b) where
  leaf _ _ _ _ _ := rfl
  f32Const v w h hv hw := by rw [eq_of_equal hv hw h]
  f64Const v w h hv hw := by rw [eq_of_equal hv hw h]
  cond p r t t' e e' _ ht he ha hb := by rw [ht ha.1 hb.1, he ha.2 hb.2]
  loop l p r c c' hc ha hb := by rw [hc ha hb]
  switch k cs cs' _ hcs ha hb := by rw [hcs ha hb]
  nil _ _ := rfl
  cons i j is js _ hi his ha hb := by rw [hi ha.1 hb.1, his ha.2 hb.2]
  noCases _ _ := rfl
  nextCase c d cs ds _ _ hc hcs ha hb := by rw [hc ha.1 hb.1, hcs ha.2 hb.2]

theorem Body.eq_of_same (a b : List Instruction) (ha : Body.Plain a) (hb : Body.Plain b)
    (h : Body.same a b = true) : a = b :=
  Body.eq_steps.body a b h ha hb

theorem exec_real (w : World) (body : Body) : exec w body = exec w body.real := by
  induction body with
  | nil => rfl
  | cons i is ih =>
    funext s
    cases hi : i.isComment with
    | false =>
      rw [show Body.real (i :: is) = i :: Body.real is by simp [Body.real, hi], exec_cons,
        exec_cons, ih]
    | true =>
      rw [show Body.real (i :: is) = Body.real is by simp [Body.real, hi], exec_cons, ← ih]
      cases i with
      | comment text => rfl
      | _ => cases hi

theorem exec_sameCode (w : World) {a b : Body} (ha : Body.Plain a) (hb : Body.Plain b)
    (h : Body.sameCode a b = true) : exec w a = exec w b := by
  rw [exec_real w a, exec_real w b, Body.eq_of_same _ _ (Body.plain_real ha) (Body.plain_real hb) h]

end Machine

end Structurer
