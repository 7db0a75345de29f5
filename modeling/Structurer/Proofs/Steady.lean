/-
**Conditions that comments do not disturb.**

A branch that is to be taken the other way gets the opposite condition, and of two tests for zero in a row the
second is then taken away.  The two have to stand side by side: a comment between them hides the first one.
In steady code this cannot happen, because no test for zero begins the code or follows another one, unless it
is there for a conditional.
-/

import Structurer.Proofs.Comments
import Structurer.Proofs.Conditions

namespace Structurer

open List

variable {i : Instruction}

namespace Body

/-! ### The last instruction -/

theorem lastReal?_of_noCode {body : Body} (h : hasNoCode body = true) : lastReal? body = none := by
  induction body with
  | nil => rfl
  | cons i is ih =>
    simp only [hasNoCode, all_cons, Bool.and_eq_true] at h
    simp [lastReal?, ih h.2, h.1]

theorem lastReal?_append_cons {note : Body} (pre : Body) (hi : i.isComment = false)
    (hn : hasNoCode note = true) : lastReal? (pre ++ i :: note) = some pre.length := by
  induction pre with
  | nil => simp [lastReal?, lastReal?_of_noCode hn, hi]
  | cons j pre ih => simp [lastReal?, ih]

theorem noCode_or_last (body : Body) :
    hasNoCode body = true ∨
      ∃ pre i note, body = pre ++ i :: note ∧ i.isComment = false ∧ hasNoCode note = true := by
  induction body with
  | nil => exact .inl rfl
  | cons i is ih =>
    rcases ih with hn | ⟨pre, j, note, rfl, hj, hn⟩
    · cases hi : i.isComment with
      | true => exact .inl (by simpa [hasNoCode, hi] using hn)
      | false => exact .inr ⟨[], i, is, rfl, hi, hn⟩
    · exact .inr ⟨i :: pre, j, note, rfl, hj, hn⟩

theorem bare_of_noCode {body : Body} (h : hasNoCode body = true) : bare body = [] := bare_eq_nil_iff.2 h

theorem bare_last {note : Body} (pre : Body) (hi : i.isComment = false) (hn : hasNoCode note = true) :
    bare (pre ++ i :: note) = bare pre ++ [i.bare] := by
  rw [bare_append, bare_cons_of_real hi, bare_of_noCode hn]

/-! ### Tests for zero -/

def isEqz (i : Instruction) : Bool := i.numericOp? == some .i32Eqz

@[simp] theorem isEqz_bare : isEqz i.bare = isEqz i := by simp [isEqz]

theorem isEqzAt_last (pre note : Body) : isEqzAt (pre ++ i :: note) pre.length = isEqz i := by
  simp [isEqzAt, isEqz]

theorem isEqzAt_before (pre note : Body) :
    (decide (0 < pre.length) && isEqzAt (pre ++ i :: note) (pre.length - 1)) = pre.getLast?.any isEqz := by
  rcases eq_nil_or_concat' pre with rfl | ⟨front, j, rfl⟩
  · rfl
  · simp [isEqzAt, isEqz]

theorem negate_last {note : Body} (pre : Body) (hi : i.isComment = false)
    (hn : hasNoCode note = true) :
    negate (pre ++ i :: note) =
      (i.numericOp?.bind NumericOp.inverse).elim
        (if isEqz i && pre.getLast?.any isEqz then pre ++ note else pre ++ i :: note ++ [eqz])
        fun op => pre ++ .numeric op :: note := by
  unfold negate
  rw [lastReal?_append_cons pre hi hn]
  simp only [getElem?_middle, Option.bind_some, set_middle, eraseIdx_middle, isEqzAt_last, Bool.and_assoc,
    isEqzAt_before]
  cases i.numericOp?.bind NumericOp.inverse with
  | none => rfl
  | some op => rfl

/-! ### Steady code -/

def startsCond : List Instruction → Bool
  | .cond .. :: _ => true
  | _ => false

def steadyAfter : (test : Bool) → List Instruction → Bool
  | _, [] => true
  | test, i :: is =>
    if isEqz i then (!test || startsCond is) && steadyAfter true is else steadyAfter false is

def Steady (body : Body) : Prop := steadyAfter true (bare body) = true

instance (body : Body) : Decidable (Steady body) := inferInstanceAs (Decidable (_ = true))

variable {a b body : Body} {test : Bool}

theorem steadyAfter_of_true (h : steadyAfter true a = true) : steadyAfter test a = true := by
  cases a with
  | nil => rfl
  | cons i is =>
    simp only [steadyAfter] at h ⊢
    split
    · next hi =>
        rw [if_pos hi, Bool.and_eq_true] at h
        rw [h.2, Bool.and_true]
        cases test with
        | true => simpa using h.1
        | false => rfl
    · next hi => rwa [if_neg hi] at h

theorem startsCond_append (h : startsCond a = true) (b : Body) : startsCond (a ++ b) = true := by
  cases a with
  | nil => cases h
  | cons i is => cases i <;> first | rfl | cases h

theorem steadyAfter_append (ha : steadyAfter test a = true) (hb : steadyAfter true b = true) :
    steadyAfter test (a ++ b) = true := by
  induction a generalizing test with
  | nil => exact steadyAfter_of_true hb
  | cons i is ih =>
    simp only [steadyAfter, cons_append] at ha ⊢
    split
    · next hi =>
        rw [if_pos hi, Bool.and_eq_true, Bool.or_eq_true] at ha
        rw [ih ha.2, Bool.and_true, Bool.or_eq_true]
        exact ha.1.imp id fun hc => startsCond_append hc b
    · next hi =>
        rw [if_neg hi] at ha
        exact ih ha

theorem steadyAfter_of_no_test (h : ∀ i ∈ a, isEqz i = false) : steadyAfter test a = true := by
  induction a generalizing test with
  | nil => rfl
  | cons i is ih =>
    rw [steadyAfter, if_neg (by simp [h i]), ih fun j hj => h j (.tail _ hj)]

theorem steadyAfter_of_concat (hi : startsCond [i] = false) (h : steadyAfter test (a ++ [i]) = true) :
    steadyAfter test a = true := by
  induction a generalizing test with
  | nil => rfl
  | cons j js ih =>
    simp only [steadyAfter, cons_append] at h ⊢
    split
    · next hj =>
        rw [if_pos hj, Bool.and_eq_true, Bool.or_eq_true] at h
        rw [ih h.2, Bool.and_true, Bool.or_eq_true]
        refine h.1.imp id fun hc => ?_
        cases js with
        | nil => rw [nil_append, hi] at hc; cases hc
        | cons k ks => cases k <;> first | rfl | cases hc
    · next hj =>
        rw [if_neg hj] at h
        exact ih h

theorem not_test_before (hi : isEqz i = true) (h : steadyAfter test (a ++ [i]) = true) :
    a.getLast?.any isEqz = false ∧ (a = [] → test = false) := by
  induction a generalizing test with
  | nil =>
    simp only [nil_append, steadyAfter, if_pos hi, startsCond, Bool.or_false, Bool.and_true] at h
    exact ⟨rfl, fun _ => by simpa using h⟩
  | cons j js ih =>
    refine ⟨?_, fun hnil => by cases hnil⟩
    simp only [steadyAfter, cons_append] at h
    cases js with
    | nil =>
      by_cases hj : isEqz j = true
      · rw [if_pos hj, Bool.and_eq_true] at h
        cases (ih h.2).2 rfl
      · simpa using hj
    | cons k ks =>
      rw [getLast?_cons_cons]
      split at h
      · rw [Bool.and_eq_true] at h
        exact (ih h.2).1
      · exact (ih h).1

theorem Steady.append (ha : Steady a) (hb : Steady b) : Steady (a ++ b) := by
  unfold Steady
  rw [bare_append]
  exact steadyAfter_append ha hb

theorem steady_of_no_test (h : ∀ i ∈ body, isEqz i = false) : Steady body := by
  refine steadyAfter_of_no_test fun i hi => ?_
  rw [bare_eq_map] at hi
  obtain ⟨j, hj, rfl⟩ := mem_map.1 hi
  rw [isEqz_bare]
  exact h j (mem_filter.1 hj).1

theorem Steady.dropConstant {pre note : Body} {v : Int32} (hn : hasNoCode note = true)
    (h : Steady (pre ++ .i32Const v :: note)) : Steady (pre ++ note) := by
  unfold Steady at h ⊢
  rw [bare_last pre rfl hn] at h
  rw [bare_append, bare_of_noCode hn, append_nil]
  exact steadyAfter_of_concat rfl h

theorem inverse_ne_eqz {op op' : NumericOp} (h : op.inverse = some op') :
    isEqz (.numeric op') = false := by
  cases op <;> simp only [NumericOp.inverse, Option.some.injEq, reduceCtorEq] at h <;> subst h <;> rfl

/-- **The opposite of a steady condition does not depend on comments.** -/
theorem bare_negate (h : Steady body) : bare (negate body) = negate (bare body) := by
  rcases noCode_or_last body with hn | ⟨pre, i, note, rfl, hi, hn⟩
  · rw [bare_of_noCode hn, negate, lastReal?_of_noCode hn, bare_append, bare_of_noCode hn]
    rfl
  · have hsteady := h
    unfold Steady at hsteady
    rw [bare_last pre hi hn] at hsteady ⊢
    rw [negate_last pre hi hn, negate_last (bare pre) (by rwa [Instruction.isComment_bare]) rfl,
      Instruction.numericOp?_bare, isEqz_bare]
    cases hop : i.numericOp?.bind NumericOp.inverse with
    | some op =>
      show bare (pre ++ .numeric op :: note) = _
      rw [bare_last pre rfl hn]
      rfl
    | none =>
      rw [Option.elim_none, Option.elim_none]
      -- in steady code nothing is taken away, whether comments are there or not
      by_cases htest : isEqz i = true
      · have hbare := (not_test_before (by rwa [isEqz_bare]) hsteady).1
        have hraw : pre.getLast?.any isEqz = false := by
          rcases eq_nil_or_concat' pre with rfl | ⟨front, j, rfl⟩
          · rfl
          · cases hj : isEqz j with
            | false => simp [hj]
            | true =>
              have hreal : j.isComment = false := by cases j <;> first | rfl | cases hj
              rw [bare_append, bare_cons_of_real hreal] at hbare
              simp [hj] at hbare
        rw [hraw, hbare]
        simp only [Bool.and_false, Bool.false_eq_true, if_false]
        rw [bare_append, bare_last pre hi hn]
        rfl
      · simp only [htest, Bool.false_and, Bool.false_eq_true, if_false]
        rw [bare_append, bare_last pre hi hn]
        rfl

theorem Steady.negate (h : Steady body) (params results : StackType) (t e : Body) :
    Steady (Body.negate body ++ [.cond params results t e]) := by
  have hcond : ∀ c : Body, Steady c → Steady (c ++ [eqz] ++ [.cond params results t e]) := by
    intro c hc
    rw [append_assoc]
    exact hc.append rfl
  rcases noCode_or_last body with hn | ⟨pre, i, note, rfl, hi, hn⟩
  · rw [Body.negate, lastReal?_of_noCode hn]
    exact hcond _ h
  · have hsteady := h
    unfold Steady at hsteady
    rw [bare_last pre hi hn] at hsteady
    rw [negate_last pre hi hn]
    -- an inverse takes the place of the last instruction; otherwise a test is taken away or added
    cases hop : i.numericOp?.bind NumericOp.inverse with
    | some op =>
      obtain ⟨op', _, hop'⟩ := Option.bind_eq_some_iff.1 hop
      have hpre : steadyAfter true (bare pre) = true := by
        refine steadyAfter_of_concat (i := i.bare) ?_ hsteady
        cases i <;> first | rfl | cases hop
      refine Steady.append ?_ rfl
      unfold Steady
      rw [Option.elim_some, bare_last pre rfl hn]
      exact steadyAfter_append hpre (steadyAfter_of_no_test (by simpa using inverse_ne_eqz hop'))
    | none =>
      rw [Option.elim_none]
      split
      · next hc =>
          rw [Bool.and_eq_true] at hc
          refine Steady.append ?_ rfl
          unfold Steady
          rw [bare_append, bare_of_noCode hn, append_nil]
          refine steadyAfter_of_concat (i := i.bare) ?_ hsteady
          have hi := hc.1
          cases i <;> first | rfl | cases hi
      · exact hcond _ h

end Body

end Structurer
