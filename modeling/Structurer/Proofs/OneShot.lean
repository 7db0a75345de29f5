/-
**Loops that run once.**

A jump forward is made of a loop.  The code in the loop parks what it has and jumps to the header of the
loop, and the next time around other code runs.  So the walk has left by the jump, and the other code
takes over where it is.
-/

import Structurer.Proofs.Waiting

namespace Structurer

open Iteration

namespace Machine

variable {α : Type} {f : α → Option (α ⊕ Result)} {Q Q' : α → State → Prop} {label : LoopLabel} {a : α}

def Departs (f : α → Option (α ⊕ Result)) (Q : α → State → Prop) (label : LoopLabel) (a : α) :
    Result → Prop
  | .jump l t => if l = label then ∃ t₀, Q a t₀ ∧ Le t₀ t else EndsAs f a (.jump l t)
  | .next _ => False
  | r => EndsAs f a r

theorem Departs.jump {t : State} (h : Q a t) : Departs f Q label a (.jump label t) := by
  simp only [Departs, if_pos]
  exact ⟨t, h, .refl t⟩

theorem EndsAs.of_related {r r' : Result} (h : EndsAs f a r) (hr : Related Le r r') : EndsAs f a r' := by
  obtain ⟨r₀, hr₀, hrel⟩ := h
  refine ⟨r₀, hr₀, ?_⟩
  cases hrel with
  | next h =>
    cases hr with
    | next h' => exact .next (h.trans h')
  | jump l h =>
    cases hr with
    | jump _ h' => exact .jump l (h.trans h')
  | returned h =>
    cases hr with
    | returned h' => exact .returned (h.trans h')
  | trapped h =>
    cases hr with
    | trapped h' => exact .trapped (h.trans h')

theorem Departs.of_related {r r' : Result} (h : Departs f Q label a r) (hr : Related Le r r') :
    Departs f Q label a r' := by
  cases hr with
  | next _ => exact h
  | returned hle => exact EndsAs.of_related h (.returned hle)
  | trapped hle => exact EndsAs.of_related h (.trapped hle)
  | jump l hle =>
    simp only [Departs] at h ⊢
    split at h
    next hl =>
      obtain ⟨t₀, hQ, ht₀⟩ := h
      rw [if_pos hl]
      exact ⟨t₀, hQ, ht₀.trans hle⟩
    next hl =>
      rw [if_neg hl]
      exact h.of_related (.jump l hle)

theorem Meets.departs_trans {x y : Option Result} (h : Meets f (Departs f Q label) a x)
    (hr : Refines Le x y) : Meets f (Departs f Q label) a y := by
  refine h.of_refines hr (fun a' hstuck => ?_) fun a' r r' hd hrel => hd.of_related hrel
  obtain ⟨r₀, _, hrel⟩ := hstuck
  cases hrel

theorem Meets.departs_andThen {x : Option Result} (h : Meets f (Departs f Q label) a x)
    (k : State → Option Result) : Meets f (Departs f Q label) a (Machine.andThen x k) := by
  cases h with
  | stuck _ h => exact .stuck _ h
  | forever h => exact .forever h
  | @comes a' r hs hr =>
    cases r with
    | next => exact hr.elim
    | jump | returned | trapped | stuck => exact .comes hs hr

theorem Meets.through_trans {N : α → State → Prop} {x y : Option Result} (h : Meets f (Through f N) a x)
    (hr : Refines Le x y) (hN : ∀ a t t', N a t → Le t t' → N a t') : Meets f (Through f N) a y := by
  refine h.of_refines hr (fun a' hstuck => ?_) fun a' r r' hd hrel => ?_
  · obtain ⟨r₀, _, hrel⟩ := hstuck
    cases hrel
  · cases hrel with
    | next hle => exact hN a' _ _ hd hle
    | jump l hle => exact EndsAs.of_related hd (.jump l hle)
    | returned hle => exact EndsAs.of_related hd (.returned hle)
    | trapped hle => exact EndsAs.of_related hd (.trapped hle)

theorem Meets.along {γ δ : Type} {Q : α → γ → Prop} {P : α → δ → Prop} {y : Option (γ ⊕ δ)}
    (h : Meets f (fun a' => Sum.elim (fun c => Q a' c ∧ a' ≠ a) (P a')) a y) :
    Meets f (Along f Q P) a y := by
  cases h with
  | stuck y h => exact .stuck y h
  | forever h => exact .forever h
  | @comes a' d hs hd =>
    cases d with
    | inr r => exact .comes hs hd
    | inl c =>
      rcases Relation.ReflTransGen.cases_tail hs with rfl | ⟨a₀, hs₀, hgo⟩
      · exact absurd rfl hd.2
      · exact .comes hs₀ ⟨a', hgo, hd.1⟩

@[simp] theorem State.set_set (s : State) (id : LocalId) (v v' : Value) :
    (s.set id v).set id v' = s.set id v' := by
  unfold State.set
  congr 1
  funext i
  by_cases hi : i = id <;> simp [hi]

end Machine

open Machine

namespace Chart

variable {R : Regime} {K : LocalId → Prop} {G : Chart} {w : World} {p : NodeId × State} {s t : State}
  {Q N : NodeId × State → State → Prop} {label : LoopLabel} {first : LocalId} {once otherwise : Body}

theorem departs_of_endsAs (hT : G.Typed R) (hg : Good R G p) (hl : R.Lacks label) {r : Result}
    (hr : EndsAs (G.step K w) p r) : Departs (G.step K w) Q label p r := by
  cases r with
  | returned | trapped | stuck => exact hr
  | next t =>
    obtain ⟨r₀, hstep, hrel⟩ := hr
    obtain ⟨i, u⟩ := p
    obtain ⟨b, hb, _⟩ := hg.block
    rw [step_of_block hb, Option.map_eq_some_iff] at hstep
    obtain ⟨r, _, hfollow⟩ := hstep
    cases hrel with
    | next _ => exact absurd hfollow follow_ne_next
  | jump l t =>
    simp only [Departs]
    split
    next heq =>
      subst heq
      exact absurd hr (not_endsAs_jump hT hg hl)
    next => exact hr

theorem Meets.good {δ : Type} {P : NodeId × State → δ → Prop} {y : Option δ} (hT : G.Typed R)
    (hC : G.Closed) (hg : Good R G p) (h : Meets (G.step K w) P p y) :
    Meets (G.step K w) (fun a d => Good R G a ∧ P a d) p y := by
  cases h with
  | stuck _ h => exact .stuck _ h
  | forever h => exact .forever h
  | comes hs h => exact .comes hs ⟨hg.steps hT hC hs, h⟩

/-! ### The loop -/

theorem leads_oneShot (hfirst : ∃ v, R.checker.locals.get? first = some v ∧ v.valueType = .i32)
    (honce : (R.inLoop label []).Leads [] once []) (hother : (R.inLoop label []).Leads [] otherwise []) :
    R.Leads [] (oneShotLoop label first once otherwise) [] := by
  obtain ⟨v, hv, ht⟩ := hfirst
  have hset : ∀ {R : Regime}, R.checker.locals.get? first = some v →
      R.Leads ([] ++ [.i32]) [.localSet first] [] := by
    intro R hv
    rw [← ht]
    exact Regime.leads_localSet hv
  have hget : (R.inLoop label []).Leads [] [.localGet first] ([] ++ [.i32]) := by
    rw [← ht]
    exact Regime.leads_localGet hv
  have hfirstTime := ((Regime.leads_i32Const 0).append (hset (R := R.inLoop label []) hv)).append honce
  have hround := hget.append (Regime.Leads.cond hfirstTime hother)
  exact ((Regime.leads_i32Const 1).append (hset hv)).append hround.loop

theorem exec_round {c : Int32} (h : s.locals first = some (.i32 c)) (a b : Body) :
    exec w [.localGet first, .cond [] [] a b] s = if c ≠ 0 then exec w a s else exec w b s := by
  have hget : execInstruction w (.localGet first) s = some (.next (s.push (.i32 c))) := by
    simp [execInstruction, simple, h]
  have hstack : (s.push (.i32 c)).stack = .i32 c :: s.stack := rfl
  rw [exec_cons, hget, andThen_next, exec_cond hstack]
  rfl

theorem rounds_last {body : State → Option Result} :
    rounds label 0 [] body s =
      ((body s).map (endRound label 0 [])).bind (Sum.elim (rounds label 0 [] body) some) :=
  iter_eq_bind _ s

/-- **What comes after the jump goes on where the walk is.** -/
theorem meets_oneShot (hT : G.Typed R) (hC : G.Closed) (hl : R.Lacks label)
    (hg : Good R G p) (hstack : s.stack = [])
    (honce : Meets (G.step K w) (Departs (G.step K w) Q label) p (exec w once (s.set first (.i32 0))))
    (hQ : ∀ a t₀, Q a t₀ → t₀.stack = [] ∧ t₀.locals first = some (.i32 0))
    (hother : ∀ a t₀ t, Q a t₀ → Le t₀ t →
      G.Tracks K w N a (exec w otherwise t)) :
    G.Tracks K w N p (exec w (oneShotLoop label first once otherwise) s) := by
  let round : Body := [.localGet first, .cond [] [] ([.i32Const 0, .localSet first] ++ once) otherwise]
  have hloop : exec w (oneShotLoop label first once otherwise) s =
      rounds label 0 [] (exec w round) (s.set first (.i32 1)) := by
    have hnil : HasTypes (s.set first (.i32 1)).stack [] := by
      rw [State.set_stack, hstack]
      exact .nil
    have hset : exec w [.i32Const 1, .localSet first] s = some (.next (s.set first (.i32 1))) := by
      simp [exec_cons, execInstruction, simple, State.push]
    have hrow : oneShotLoop label first once otherwise =
        [.i32Const 1, .localSet first] ++ [.loop label [] [] round] := rfl
    rw [hrow, exec_append, hset, andThen_next, exec_loop hnil]
    rfl
  have hround₁ : exec w round (s.set first (.i32 1)) = exec w once (s.set first (.i32 0)) := by
    have hset : exec w [.i32Const 0, .localSet first] (s.set first (.i32 1)) =
        some (.next (s.set first (.i32 0))) := by
      simp [exec_cons, execInstruction, simple, State.push, State.set_withStack]
    rw [exec_round (State.set_locals_self ..), if_pos (by decide), exec_append, hset, andThen_next]
  rw [hloop, rounds_last, hround₁]
  -- the first round ends the walk, or it comes back to the header
  refine Meets.bind (P := fun a d => Good R G a ∧ Sum.elim (fun t => ∃ t₀, Q a t₀ ∧ Le t₀ t)
    (Through (G.step K w) N a) d) (Meets.map (Meets.good hT hC hg honce) ?_) ?_
  · rintro a r ⟨ha, hd⟩
    refine ⟨ha, ?_⟩
    cases r with
    | next t => exact hd.elim
    | returned | trapped | stuck => exact hd
    | jump l t =>
      simp only [Departs] at hd
      by_cases hlabel : l = label
      · rw [if_pos hlabel] at hd
        subst hlabel
        obtain ⟨t₀, hQt, hle⟩ := hd
        have hself : t.withStack [] = t := by
          have := t.withStack_self
          rwa [hle.stack_eq, (hQ a t₀ hQt).1] at this
        simp only [endRound, if_pos, Nat.zero_le, List.take_zero, List.nil_append, hself]
        exact ⟨t₀, hQt, hle⟩
      · rw [if_neg hlabel] at hd
        simp only [endRound, if_neg hlabel]
        exact hd
  · rintro a d ⟨ha, hd⟩
    cases d with
    | inr r => exact .here hd
    | inl t =>
      obtain ⟨t₀, hQt, hle⟩ := hd
      have hround₂ : exec w round t = exec w otherwise t := by
        rw [exec_round (hle.locals_eq (hQ a t₀ hQt).2), if_neg (by decide)]
      show Meets _ _ a (rounds label 0 [] (exec w round) t)
      rw [rounds_last, hround₂]
      refine Meets.bind (P := fun a => Sum.elim (fun _ => False) (Through (G.step K w) N a))
        (Meets.map (Meets.good hT hC ha (hother a t₀ t hQt hle)) ?_) ?_
      · rintro a' r ⟨ha', hthrough⟩
        cases r with
        | next | returned | trapped | stuck => exact hthrough
        | jump l u =>
          have hne : l ≠ label := by
            rintro rfl
            exact not_endsAs_jump hT ha' hl hthrough
          simp only [endRound, if_neg hne]
          exact hthrough
      · intro a' d hd'
        cases d with
        | inl _ => exact hd'.elim
        | inr r => exact .here hd'

end Chart

end Structurer
