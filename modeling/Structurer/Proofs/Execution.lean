/-
**Laws of execution.**

Code in a row runs in a row, comments do nothing, and a run does the same in states that differ only
in what it does not look at: variables it does not mention, values below its part of the stack, and
variables that hold something where it needs nothing.

The comparison of two runs is a *refinement*.  The first run may get stuck, and then nothing is said
about the second; otherwise the two end in the same way, or both run for ever.
-/

import Structurer.Proofs.Machine

namespace Structurer

open List

/-! ### Variables that code mentions -/

mutual

def Instruction.UsesOnly (P : LocalId → Prop) : Instruction → Prop
  | .localGet id => P id
  | .localSet id => P id
  | .cond _ _ t e => Body.UsesOnly P t ∧ Body.UsesOnly P e
  | .loop _ _ _ b => Body.UsesOnly P b
  | .switch selector cases => P selector ∧ Body.CasesUseOnly P cases
  | _ => True

def Body.UsesOnly (P : LocalId → Prop) : List Instruction → Prop
  | [] => True
  | i :: is => Instruction.UsesOnly P i ∧ Body.UsesOnly P is

def Body.CasesUseOnly (P : LocalId → Prop) : List (List Instruction) → Prop
  | [] => True
  | b :: bs => Body.UsesOnly P b ∧ Body.CasesUseOnly P bs

end

namespace Machine

open Iteration

variable {s s' : State} {k body : State → Option Result} {v : Value} {n : Nat}
  {args extra base : List Value}

/-! ### Code in a row -/

variable (s k)

@[simp] theorem andThen_next : andThen (some (.next s)) k = k s := rfl

@[simp] theorem andThen_none : andThen none k = none := rfl

@[simp] theorem andThen_jump (l : LoopLabel) : andThen (some (.jump l s)) k = some (.jump l s) := rfl

@[simp] theorem andThen_returned : andThen (some (.returned s)) k = some (.returned s) := rfl

@[simp] theorem andThen_trapped : andThen (some (.trapped s)) k = some (.trapped s) := rfl

@[simp] theorem andThen_stuck : andThen (some .stuck) k = some .stuck := rfl

variable {s k}

theorem andThen_assoc (r : Option Result) (k k' : State → Option Result) :
    andThen (andThen r k) k' = andThen r fun s => andThen (k s) k' := by
  rcases r with _ | (_ | _ | _ | _ | _) <;> rfl

theorem andThen_some_next (r : Option Result) : andThen r (fun s => some (.next s)) = r := by
  rcases r with _ | (_ | _ | _ | _ | _) <;> rfl

section

variable [Storage]

@[simp] theorem exec_nil (w : World) (s : State) : exec w [] s = some (.next s) := by
  rw [exec]

theorem exec_cons (w : World) (i : Instruction) (is : Body) (s : State) :
    exec w (i :: is) s = andThen (execInstruction w i s) (exec w is) := by
  rw [exec]

theorem exec_append (w : World) (a b : Body) (s : State) :
    exec w (a ++ b) s = andThen (exec w a s) (exec w b) := by
  induction a generalizing s with
  | nil => simp
  | cons i is ih =>
    rw [cons_append, exec_cons, exec_cons, andThen_assoc]
    congr 1
    funext s'
    exact ih s'

theorem exec_singleton (w : World) (i : Instruction) (s : State) :
    exec w [i] s = execInstruction w i s := by
  rw [exec_cons]
  have h : exec w [] = fun s => some (.next s) := funext fun s => exec_nil w s
  rw [h, andThen_some_next]

theorem exec_comments (w : World) {note : Body} (h : note.hasNoCode = true) (s : State) :
    exec w note s = some (.next s) := by
  induction note with
  | nil => simp
  | cons i is ih =>
    simp only [Body.hasNoCode, all_cons, Bool.and_eq_true] at h
    obtain ⟨hi, his⟩ := h
    cases i with
    | comment text =>
      rw [exec_cons]
      simp only [execInstruction, simple, andThen_next]
      exact ih his
    | _ => simp [Instruction.isComment] at hi

end

/-! ### Refinement -/

/-- Two results of the same kind, with related states. -/
inductive Related (R : State → State → Prop) : Result → Result → Prop
  | next {s s' : State} (h : R s s') : Related R (.next s) (.next s')
  | jump (l : LoopLabel) {s s' : State} (h : R s s') : Related R (.jump l s) (.jump l s')
  | returned {s s' : State} (h : R s s') : Related R (.returned s) (.returned s')
  | trapped {s s' : State} (h : R s s') : Related R (.trapped s) (.trapped s')

/-- The first run gets stuck, or both run for ever, or both end in related results. -/
inductive Refines (R : State → State → Prop) : Option Result → Option Result → Prop
  | stuck (y : Option Result) : Refines R (some .stuck) y
  | forever : Refines R none none
  | ends {r r' : Result} (h : Related R r r') : Refines R (some r) (some r')

section Refines

variable {R R' R'' : State → State → Prop}

theorem Refines.next (h : R s s') : Refines R (some (.next s)) (some (.next s')) := .ends (.next h)

theorem Refines.trans (hR : ∀ s s' s'', R s s' → R' s' s'' → R'' s s'') {x y z : Option Result}
    (h : Refines R x y) (h' : Refines R' y z) : Refines R'' x z := by
  cases h with
  | stuck y => exact .stuck z
  | forever => cases h'; exact .forever
  | ends h =>
    cases h with
    | next h =>
      obtain _ | _ | (h' | _ | _ | _) := h'
      exact .ends (.next (hR _ _ _ h h'))
    | jump l h =>
      obtain _ | _ | (_ | ⟨_, h'⟩ | _ | _) := h'
      exact .ends (.jump l (hR _ _ _ h h'))
    | returned h =>
      obtain _ | _ | (_ | _ | h' | _) := h'
      exact .ends (.returned (hR _ _ _ h h'))
    | trapped h =>
      obtain _ | _ | (_ | _ | _ | h') := h'
      exact .ends (.trapped (hR _ _ _ h h'))

theorem Refines.andThen {x y : Option Result} {k' : State → Option Result} (h : Refines R x y)
    (hk : ∀ s s', R s s' → x = some (.next s) → y = some (.next s') → Refines R (k s) (k' s')) :
    Refines R (Machine.andThen x k) (Machine.andThen y k') := by
  cases h with
  | stuck y => exact .stuck _
  | forever => exact .forever
  | ends h =>
    cases h with
    | next h => exact hk _ _ h rfl rfl
    | jump l h => exact .ends (.jump l h)
    | returned h => exact .ends (.returned h)
    | trapped h => exact .ends (.trapped h)

/-- How the step of one iteration is refined by that of another. -/
inductive StepRefines {α γ : Type} (Q : α → γ → Prop) (R : State → State → Prop) :
    Option (α ⊕ Result) → Option (γ ⊕ Result) → Prop
  | stuck (y : Option (γ ⊕ Result)) : StepRefines Q R (some (.inr .stuck)) y
  | forever : StepRefines Q R none none
  | goes {a : α} {c : γ} (h : Q a c) : StepRefines Q R (some (.inl a)) (some (.inl c))
  | ends {r r' : Result} (h : Related R r r') : StepRefines Q R (some (.inr r)) (some (.inr r'))

theorem iter_refines {α γ : Type} {Q : α → γ → Prop} {f : α → Option (α ⊕ Result)}
    {h : γ → Option (γ ⊕ Result)} (step : ∀ a c, Q a c → StepRefines Q R (f a) (h c)) {a : α} {c : γ}
    (hQ : Q a c) : Refines R (iter f a) (iter h c) := by
  have matched : ∀ a c, Q a c → Fails (· = Result.stuck) f a ∨
      Matched f Q (fun a r => ∃ r₀, f a = some (.inr r₀) ∧ Related R r₀ r) a (h c) := by
    intro a c hQ
    have hs := step a c hQ
    generalize hx : f a = x at hs
    generalize hy : h c = y at hs
    cases hs with
    | stuck y => exact .inl ⟨_, iter_of_inr hx, rfl⟩
    | forever => exact .inr (iter_of_none hx)
    | goes hQ' => exact .inr ⟨_, Relation.TransGen.single hx, hQ'⟩
    | ends hr => exact .inr ⟨a, Relation.ReflTransGen.refl, _, hx, hr⟩
  rcases simulate matched hQ with ⟨b, hb, rfl⟩ | ⟨ha, hc⟩ | ⟨a', r, hs, hc, r₀, hr₀, hr⟩
  · rw [hb]
    exact .stuck _
  · rw [ha, hc]
    exact .forever
  · rw [iter_of_steps hs, iter_of_inr hr₀, hc]
    exact .ends hr

end Refines

/-! ### Larger states -/

/-- A state is below another one if the other one has the same stack with some values below it, and
every variable that holds a value in the first holds the same value in the other. -/
structure Below (extra : List Value) (s s' : State) : Prop where
  stack : s'.stack = s.stack ++ extra
  calls : s'.calls = s.calls
  locals : ∀ id v, s.locals id = some v → s'.locals id = some v

abbrev Le (s s' : State) : Prop := Below [] s s'

theorem Le.refl (s : State) : Le s s := ⟨by simp, rfl, fun _ _ h => h⟩

theorem Le.stack_eq (h : Le s s') : s'.stack = s.stack := by
  simpa using h.stack

theorem Le.locals_eq (h : Le s s') {id : LocalId} (hv : s.locals id = some v) :
    s'.locals id = some v := h.locals id v hv

theorem Le.trans {s'' : State} (h : Le s s') (h' : Le s' s'') : Le s s'' :=
  ⟨by rw [h'.stack_eq, h.stack], h'.calls.trans h.calls,
    fun _ _ hv => h'.locals_eq (h.locals_eq hv)⟩

theorem Refines.le_trans {x y z : Option Result} (h : Refines Le x y) (h' : Refines Le y z) :
    Refines Le x z :=
  h.trans (fun _ _ _ h h' => h.trans h') h'

section

variable (h : Below extra s s')

include h

theorem Below.withStack (l : List Value) :
    Below extra (s.withStack l) (s'.withStack (l ++ extra)) :=
  ⟨rfl, h.calls, h.locals⟩

theorem Below.push (v : Value) : Below extra (s.push v) (s'.push v) :=
  ⟨by simp [h.stack], h.calls, h.locals⟩

theorem Below.set (id : LocalId) (v : Value) : Below extra (s.set id v) (s'.set id v) := by
  refine ⟨h.stack, h.calls, ?_⟩
  intro i x hx
  by_cases hid : i = id
  · subst hid
    rw [State.set_locals_self] at hx ⊢
    exact hx
  · rw [State.set_locals_of_ne _ _ hid] at hx ⊢
    exact h.locals i x hx

theorem Below.take (hn : n ≤ s.stack.length) : s'.stack.take n = s.stack.take n := by
  rw [h.stack, take_append_of_le_length hn]

theorem Below.drop (hn : n ≤ s.stack.length) : s'.stack.drop n = s.stack.drop n ++ extra := by
  rw [h.stack, drop_append_of_le_length hn]

theorem Below.length_le (hn : n ≤ s.stack.length) : n ≤ s'.stack.length := by
  rw [h.stack, length_append]
  omega

end

theorem evalOp_length {w : World} {op : NumericOp} (h : evalOp w op args = some v) :
    args.length = op.inputs.length := by
  unfold evalOp at h
  split at h <;> first | rfl | cases h

theorem call_below (w : World) (name : String) (inputs outputs : StackType) (h : Below extra s s') :
    Refines (Below extra) (some (call w name inputs outputs s))
      (some (call w name inputs outputs s')) := by
  unfold call
  by_cases hargs : List.Forall₂ Value.Has (s.callOf name inputs outputs).args inputs
  · have hn : inputs.length ≤ s.stack.length := by
      have := hargs.length_eq
      simp only [State.callOf, length_reverse, length_take] at this
      omega
    have hcall : s'.callOf name inputs outputs = s.callOf name inputs outputs := by
      simp only [State.callOf, h.take hn]
    have hmade : Below extra (s.afterCall (s.callOf name inputs outputs))
        (s'.afterCall (s.callOf name inputs outputs)) :=
      ⟨h.drop hn, by simp only [State.afterCall, h.calls], h.locals⟩
    rw [hcall, if_pos hargs, if_pos hargs, h.calls]
    cases w.answer s.calls (s.callOf name inputs outputs) with
    | none => exact .ends (.trapped hmade)
    | some values =>
      refine .next ?_
      have hw := hmade.withStack (values.reverse ++ (s.afterCall (s.callOf name inputs outputs)).stack)
      rw [append_assoc, ← hmade.stack] at hw
      exact hw
  · rw [if_neg hargs]
    exact .stuck _

def Storage.Within (st st' : Storage) : Prop := ∀ id v, st.takes id v = true → st'.takes id v = true

section

variable {st st' : Storage}

theorem simple_within (hst : st.Within st') (w : World) (i : Instruction) (h : Below extra s s') :
    Refines (Below extra) (some (@simple st w i s)) (some (@simple st' w i s')) := by
  cases i with
  | i32Const v => exact .next (h.push _)
  | i64Const v => exact .next (h.push _)
  | f32Const v => exact .next (h.push _)
  | f64Const v => exact .next (h.push _)
  | localGet id =>
    cases hv : s.locals id with
    | none => simp only [simple, hv]; exact .stuck _
    | some v =>
      simp only [simple, hv, h.locals id v hv]
      exact .next (h.push v)
  | localSet id =>
    cases hs : s.stack with
    | nil => simp only [simple, hs]; exact .stuck _
    | cons v rest =>
      simp only [simple, hs, h.stack, cons_append, assign]
      by_cases ht : st.takes id v = true
      · rw [if_pos ht, if_pos (hst id v ht)]
        exact .next ((h.withStack rest).set id v)
      · rw [if_neg ht]
        exact .stuck _
  | numeric op =>
    cases hv : evalOp w op (s.stack.take op.inputs.length).reverse with
    | none => simp only [simple, hv]; exact .stuck _
    | some v =>
      have hn : op.inputs.length ≤ s.stack.length := by
        have := evalOp_length hv
        simp only [length_reverse, length_take] at this
        omega
      simp only [simple, h.take hn, hv, h.drop hn]
      exact .next (h.withStack (v :: s.stack.drop op.inputs.length))
  | drop =>
    cases hs : s.stack with
    | nil => simp only [simple, hs]; exact .stuck _
    | cons v rest =>
      simp only [simple, hs, h.stack, cons_append]
      exact .next (h.withStack rest)
  | call name inputs outputs => exact call_below w name inputs outputs h
  | br l => exact .ends (.jump l h)
  | brIf l =>
    rcases hs : s.stack with _ | ⟨v, rest⟩
    · simp only [simple, hs]; exact .stuck _
    · cases v with
      | i32 c =>
        simp only [simple, hs, h.stack, cons_append]
        by_cases hc : c ≠ 0
        · rw [if_pos hc, if_pos hc]
          exact .ends (.jump l (h.withStack rest))
        · rw [if_neg hc, if_neg hc]
          exact .next (h.withStack rest)
      | _ => simp only [simple, hs]; exact .stuck _
  | unreachable => exact .ends (.trapped h)
  | ret => exact .ends (.returned h)
  | comment _ => exact .next h
  | cond _ _ _ _ => exact .next h
  | loop _ _ _ _ => exact .next h
  | switch _ _ => exact .next h

theorem rounds_below {body' : State → Option Result} (label : LoopLabel) (arity : Nat) (base : List Value)
    (hbody : ∀ s s', Below extra s s' → Refines (Below extra) (body s) (body' s'))
    (h : Below extra s s') :
    Refines (Below extra) (rounds label arity base body s)
      (rounds label arity (base ++ extra) body' s') := by
  refine iter_refines ?_ h
  intro a c hac
  have hr := hbody a c hac
  generalize body a = x at hr
  generalize body' c = y at hr
  cases hr with
  | stuck y => exact .stuck _
  | forever => exact .forever
  | ends hr =>
    cases hr with
    | next h => exact .ends (.next h)
    | returned h => exact .ends (.returned h)
    | trapped h => exact .ends (.trapped h)
    | @jump l t t' h =>
      simp only [Option.map_some, endRound]
      by_cases hl : l = label
      · rw [if_pos hl, if_pos hl]
        by_cases hn : arity ≤ t.stack.length
        · rw [if_pos hn, if_pos (h.length_le hn), h.take hn]
          refine .goes ⟨?_, h.calls, h.locals⟩
          simp
        · rw [if_neg hn]
          exact .stuck _
      · rw [if_neg hl, if_neg hl]
        exact .ends (.jump l h)

mutual

theorem execInstruction_within (hst : st.Within st') (w : World) (i : Instruction) {s s' : State}
    (h : Below extra s s') :
    Refines (Below extra) (@execInstruction st w i s) (@execInstruction st' w i s') := by
  cases i with
  | cond _ _ t e =>
    rcases hs : s.stack with _ | ⟨v, rest⟩
    · simp only [execInstruction, hs]; exact .stuck _
    · cases v with
      | i32 c =>
        simp only [execInstruction, hs, h.stack, cons_append]
        by_cases hc : c ≠ 0
        · rw [if_pos hc, if_pos hc]
          exact exec_within hst w t (h.withStack rest)
        · rw [if_neg hc, if_neg hc]
          exact exec_within hst w e (h.withStack rest)
      | _ => simp only [execInstruction, hs]; exact .stuck _
  | loop label params _ body =>
    simp only [execInstruction]
    by_cases hn : params.length ≤ s.stack.length
    · rw [if_pos hn, if_pos (h.length_le hn), h.drop hn]
      exact rounds_below label _ _ (fun _ _ h => exec_within hst w body h) h
    · rw [if_neg hn]
      exact .stuck _
  | switch selector cases =>
    rcases hv : s.locals selector with _ | v
    · simp only [execInstruction, hv]; exact .stuck _
    · cases v with
      | i32 k =>
        simp only [execInstruction, hv, h.locals selector _ hv]
        by_cases hk : 0 ≤ k
        · rw [if_pos hk, if_pos hk]
          exact execCase_within hst w cases _ h
        · rw [if_neg hk, if_neg hk]
          exact .ends (.trapped h)
      | _ => simp only [execInstruction, hv]; exact .stuck _
  | _ =>
    simp only [execInstruction]
    exact simple_within hst w _ h

theorem exec_within (hst : st.Within st') (w : World) (b : List Instruction) {s s' : State}
    (h : Below extra s s') :
    Refines (Below extra) (@exec st w b s) (@exec st' w b s') := by
  match b with
  | [] =>
    rw [@exec_nil st, @exec_nil st']
    exact .next h
  | i :: is =>
    rw [@exec_cons st, @exec_cons st']
    refine (execInstruction_within hst w i h).andThen ?_
    intro t t' ht _ _
    exact exec_within hst w is ht

theorem execCase_within (hst : st.Within st') (w : World) (bs : List (List Instruction))
    (k : Nat) {s s' : State} (h : Below extra s s') :
    Refines (Below extra) (@execCase st w bs k s) (@execCase st' w bs k s') := by
  match bs, k with
  | [], _ =>
    simp only [execCase]
    exact .ends (.trapped h)
  | b :: _, 0 =>
    simp only [execCase]
    exact exec_within hst w b h
  | _ :: bs, k + 1 =>
    simp only [execCase]
    exact execCase_within hst w bs k h

end

end

/-- **A run does the same in a larger state**, unless it gets stuck in the smaller one. -/
theorem exec_le (w : World) (b : Body) (h : Le s s') : Refines Le (exec w b s) (exec w b s') :=
  exec_within (fun _ _ h => h) w b h

/-! ### Variables that are not mentioned -/

def Result.Spares (x : LocalId) (s : State) : Result → Prop
  | .next t => t.locals x = s.locals x
  | .jump _ t => t.locals x = s.locals x
  | _ => True

section Spares

variable {x : LocalId} {t : State} {r : Result}

theorem Result.Spares.of_locals (ht : t.locals x = s.locals x) (h : r.Spares x t) : r.Spares x s := by
  cases r with
  | next u | jump _ u => exact Eq.trans (b := t.locals x) h ht
  | returned | trapped | stuck => trivial

theorem andThen_spares {y : Option Result} (hy : ∀ r, y = some r → r.Spares x s)
    (hk : ∀ t r, k t = some r → r.Spares x t) (h : andThen y k = some r) : r.Spares x s := by
  cases y with
  | none => cases h
  | some r₀ =>
    have hr₀ := hy r₀ rfl
    cases r₀ with
    | next t => exact (hk t r h).of_locals hr₀
    | jump | returned | trapped | stuck =>
      cases h
      exact hr₀

theorem rounds_spares {label : LoopLabel} {arity : Nat}
    (hbody : ∀ t r, body t = some r → r.Spares x t) (h : rounds label arity base body s = some r) :
    r.Spares x s := by
  have goOn : ∀ a a', a.locals x = s.locals x →
      (body a).map (endRound label arity base) = some (.inl a') → a'.locals x = s.locals x := by
    intro a a' ha hround
    obtain ⟨r₁, hr₁, hend⟩ := Option.map_eq_some_iff.1 hround
    have hspared := hbody a r₁ hr₁
    cases r₁ with
    | next | returned | trapped | stuck => cases hend
    | jump l t =>
      simp only [endRound] at hend
      split at hend
      · split at hend
        · cases hend
          exact Eq.trans (b := a.locals x) hspared ha
        · cases hend
      · cases hend
  have finish : ∀ a r, a.locals x = s.locals x →
      (body a).map (endRound label arity base) = some (.inr r) → r.Spares x s := by
    intro a r ha hround
    obtain ⟨r₁, hr₁, hend⟩ := Option.map_eq_some_iff.1 hround
    have hspared := (hbody a r₁ hr₁).of_locals ha
    cases r₁ with
    | next | returned | trapped | stuck =>
      cases hend
      exact hspared
    | jump l t =>
      simp only [endRound] at hend
      split at hend
      · split at hend
        · cases hend
        · cases hend
          trivial
      · cases hend
        exact hspared
  exact iter_invariant goOn finish rfl h

theorem simple_spares (w : World) {i : Instruction} (hi : i.UsesOnly (· ≠ x)) (s : State) :
    (simple w i s).Spares x s := by
  cases i with
  | localSet id =>
    rcases hs : s.stack with _ | ⟨v, rest⟩
    · simp only [simple, hs]
      trivial
    · simp only [simple, hs]
      exact State.set_locals_of_ne _ _ (Ne.symm hi)
  | call name inputs outputs =>
    simp only [simple, call]
    split
    · cases w.answer s.calls (s.callOf name inputs outputs) with
      | none => trivial
      | some values => rfl
    · trivial
  | localGet | numeric | drop | brIf =>
    simp only [simple]
    repeat' split
    all_goals first | rfl | trivial
  | _ => first | rfl | trivial

end Spares

mutual

theorem execInstruction_spares (w : World) {x : LocalId} (i : Instruction) (hi : i.UsesOnly (· ≠ x))
    {s : State} {r : Result} (h : execInstruction w i s = some r) : r.Spares x s := by
  cases i with
  | cond _ _ t e =>
    simp only [execInstruction] at h
    split at h
    · split at h
      · exact (exec_spares w t hi.1 h).of_locals rfl
      · exact (exec_spares w e hi.2 h).of_locals rfl
    · cases h
      trivial
  | loop label params _ body =>
    simp only [execInstruction] at h
    split at h
    · exact rounds_spares (fun _ _ => exec_spares w body hi) h
    · cases h
      trivial
  | switch selector cases =>
    simp only [execInstruction] at h
    split at h
    · split at h
      · exact execCase_spares w cases hi.2 _ h
      · cases h
        trivial
    · cases h
      trivial
  | _ =>
    simp only [execInstruction] at h
    cases h
    exact simple_spares w hi s

/-- **A run leaves variables alone that its code does not mention.** -/
theorem exec_spares (w : World) {x : LocalId} (b : List Instruction) (hb : Body.UsesOnly (· ≠ x) b)
    {s : State} {r : Result} (h : exec w b s = some r) : r.Spares x s := by
  match b with
  | [] =>
    rw [exec_nil] at h
    cases h
    rfl
  | i :: is =>
    rw [exec_cons] at h
    exact andThen_spares (fun _ => execInstruction_spares w i hb.1) (fun _ _ => exec_spares w is hb.2) h

theorem execCase_spares (w : World) {x : LocalId} (bs : List (List Instruction))
    (hbs : Body.CasesUseOnly (· ≠ x) bs) (k : Nat) {s : State} {r : Result}
    (h : execCase w bs k s = some r) : r.Spares x s := by
  match bs, k with
  | [], _ =>
    simp only [execCase] at h
    cases h
    trivial
  | b :: _, 0 =>
    simp only [execCase] at h
    exact exec_spares w b hbs.1 h
  | _ :: bs, k + 1 =>
    simp only [execCase] at h
    exact execCase_spares w bs hbs.2 k h

end

end Machine

end Structurer
