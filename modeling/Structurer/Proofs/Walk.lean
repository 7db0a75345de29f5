/-
**Walks over charts.**

A chart is run block by block: the body of a block runs, and its exit says where control goes next.
Structuring turns a chart into another one, or into a single body, and each time the run of the result
has to *meet* the walk over the chart it came from: whatever the result comes to, the walk comes to by
some steps of its own, or the walk gets stuck on the way.

Structuring parks stack values in variables of their own, the slots.  No block relies on what another
one left in a slot.  A walk makes that plain by forgetting the slots on entering a block, so that code
that does rely on them gets stuck.
-/

import Structurer.Proofs.Assembly
import Structurer.Proofs.Soundness

namespace Structurer

open Machine List Exit

variable {v : Value} {x : Option Result} {id : LocalId} {l : LoopLabel} {r : Result} {e : Exit}
  {t s s' t₁ : State} {out i j : NodeId} {p : NodeId × State} {b' b : Block} {K : LocalId → Prop}
  {R : Regime} {w : World} {G : Chart}

namespace Machine

open Iteration

/-! ### Forgetting variables -/

open Classical in
/-- The state without the values of some variables. -/
noncomputable def State.forget (K : LocalId → Prop) (s : State) : State :=
  { s with locals := fun id => if K id then none else s.locals id }

section Forget

variable {s'' : State} {id : LocalId}

@[simp] theorem State.forget_stack : (s.forget K).stack = s.stack := rfl
@[simp] theorem State.forget_calls : (s.forget K).calls = s.calls := rfl

theorem State.forget_locals_of (h : K id) : (s.forget K).locals id = none := if_pos h

theorem State.forget_locals_of_not (h : ¬ K id) : (s.forget K).locals id = s.locals id := if_neg h

theorem State.forget_locals_eq_some_iff :
    (s.forget K).locals id = some v ↔ ¬ K id ∧ s.locals id = some v := by
  by_cases h : K id
  · simp [State.forget_locals_of h, h]
  · simp [State.forget_locals_of_not h, h]

@[simp] theorem State.forget_withStack (l : List Value) :
    (s.withStack l).forget K = (s.forget K).withStack l := rfl

theorem State.forget_nothing : s.forget (fun _ => False) = s := by
  cases s
  simp [State.forget]

theorem le_forget : Le (s.forget K) s :=
  ⟨by simp, rfl, fun _ _ h => (State.forget_locals_eq_some_iff.1 h).2⟩

theorem Le.forget_left (h : Le s s') : Le (s.forget K) s' := le_forget.trans h

theorem Le.forget_right (h : Le (s.forget K) s') : Le (s.forget K) (s'.forget K) := by
  refine ⟨h.stack, h.calls, fun id v hv => ?_⟩
  obtain ⟨hK, _⟩ := State.forget_locals_eq_some_iff.1 hv
  exact State.forget_locals_eq_some_iff.2 ⟨hK, h.locals_eq hv⟩

theorem Le.withStack (h : Le s s') (l : List Value) : Le (s.withStack l) (s'.withStack l) := by
  have := Below.withStack h l
  rwa [append_nil] at this

theorem Le.set_right (h : Le s s') (hid : s.locals id = none) : Le s (s'.set id v) := by
  refine ⟨h.stack, h.calls, fun i x hx => ?_⟩
  have hne : i ≠ id := by
    rintro rfl
    rw [hid] at hx
    cases hx
  rw [State.set_locals_of_ne _ _ hne]
  exact h.locals_eq hx

end Forget

/-! ### Meeting a walk -/

section Meets

variable {α γ δ ε : Type} {f : α → Option (α ⊕ Result)}

/-- Whatever the second run comes to, the first one comes to by some of its steps: `P` says how the
place it has come to and the result of the second run belong together. -/
inductive Meets (f : α → Option (α ⊕ Result)) (P : α → δ → Prop) (a : α) : Option δ → Prop
  | stuck (y : Option δ) (h : iter f a = some .stuck) : Meets f P a y
  | forever (h : iter f a = none) : Meets f P a none
  | comes {a' : α} {d : δ} (hs : Steps f a a') (h : P a' d) : Meets f P a (some d)

def Along (f : α → Option (α ⊕ Result)) (Q : α → γ → Prop) (P : α → δ → Prop) (a : α) : γ ⊕ δ → Prop
  | .inl c => ∃ a', Goes f a a' ∧ Q a' c
  | .inr d => P a d

def EndsAs (f : α → Option (α ⊕ Result)) (a : α) (r : Result) : Prop :=
  ∃ r₀, f a = some (.inr r₀) ∧ Related Le r₀ r

def Through (f : α → Option (α ⊕ Result)) (N : α → State → Prop) (a : α) : Result → Prop
  | .next t => N a t
  | r => EndsAs f a r

variable {Q : α → γ → Prop} {P P' : α → δ → Prop} {N N' : α → State → Prop} {a a' : α}

theorem Meets.of_steps (hs : Steps f a a') {y : Option δ} (h : Meets f P a' y) : Meets f P a y := by
  cases h with
  | stuck _ h => exact .stuck _ (by rw [iter_of_steps hs, h])
  | forever h => exact .forever (by rw [iter_of_steps hs, h])
  | comes hs' h => exact .comes (hs.trans hs') h

theorem Meets.of_goes (hs : Goes f a a') {y : Option δ} (h : Meets f P a' y) : Meets f P a y :=
  h.of_steps (Relation.ReflTransGen.single hs)

theorem Meets.here {d : δ} (h : P a d) : Meets f P a (some d) := .comes .refl h

theorem Meets.bind {P' : α → ε → Prop} {y : Option δ} {k : δ → Option ε} (h : Meets f P a y)
    (hk : ∀ a' d, P a' d → Meets f P' a' (k d)) : Meets f P' a (y.bind k) := by
  cases h with
  | stuck _ h => exact .stuck _ h
  | forever h => exact .forever h
  | comes hs h => exact (hk _ _ h).of_steps hs

theorem Meets.map {P' : α → ε → Prop} {y : Option δ} {k : δ → ε} (h : Meets f P a y)
    (hk : ∀ a' d, P a' d → P' a' (k d)) : Meets f P' a (y.map k) := by
  rw [Option.map_eq_bind]
  exact h.bind fun a' d hd => .here (hk a' d hd)

theorem Meets.mono {y : Option δ} (h : Meets f P a y) (hP : ∀ a' d, P a' d → P' a' d) :
    Meets f P' a y := by
  cases h with
  | stuck _ h => exact .stuck _ h
  | forever h => exact .forever h
  | comes hs h => exact .comes hs (hP _ _ h)

theorem Meets.iter {h : γ → Option (γ ⊕ δ)} (step : ∀ a c, Q a c → Meets f (Along f Q P) a (h c))
    {c : γ} (hQ : Q a c) : Meets f P a (Iteration.iter h c) := by
  have matched : ∀ a c, Q a c → Fails (· = Result.stuck) f a ∨ Matched f Q P a (h c) := by
    intro a c hQ
    have hm := step a c hQ
    generalize h c = y at hm
    cases hm with
    | stuck _ h => exact .inl ⟨_, h, rfl⟩
    | forever h => exact .inr h
    | @comes a' d hs h =>
      cases d with
      | inl c' =>
        obtain ⟨a'', hg, hQ'⟩ := h
        exact .inr ⟨a'', Relation.TransGen.tail' hs hg, hQ'⟩
      | inr d => exact .inr ⟨a', hs, h⟩
  rcases simulate matched hQ with ⟨b, hb, rfl⟩ | ⟨ha, hc⟩ | ⟨a', d, hs, hd, hP⟩
  · exact .stuck _ hb
  · rw [hc]
    exact .forever ha
  · rw [hd]
    exact .comes hs hP

theorem Meets.refines {y : Option Result} (h : Meets f (EndsAs f) a y) :
    Refines Le (Iteration.iter f a) y := by
  cases h with
  | stuck _ h =>
    rw [h]
    exact .stuck _
  | forever h =>
    rw [h]
    exact .forever
  | comes hs h =>
    obtain ⟨r₀, hr₀, hr⟩ := h
    rw [iter_of_steps hs, iter_of_inr hr₀]
    exact .ends hr

theorem Meets.andThen {k : State → Option Result} (h : Meets f (Through f N) a x)
    (hk : ∀ a' t, N a' t → Meets f (Through f N') a' (k t)) :
    Meets f (Through f N') a (Machine.andThen x k) := by
  cases h with
  | stuck _ h => exact .stuck _ h
  | forever h => exact .forever h
  | @comes a' r hs h =>
    cases r with
    | next t => exact (hk _ _ h).of_steps hs
    | jump l t => exact .comes hs h
    | returned t => exact .comes hs h
    | trapped t => exact .comes hs h
    | stuck => exact .comes hs h

theorem Meets.through (h : Meets f (Through f N) a x)
    (hN : ∀ a' t, N a' t → x = some (.next t) → N' a' t) : Meets f (Through f N') a x := by
  cases h with
  | stuck _ h => exact .stuck _ h
  | forever h => exact .forever h
  | @comes a' r hs h =>
    refine .comes hs ?_
    cases r with
    | next t => exact hN a' t h rfl
    | jump | returned | trapped | stuck => exact h

theorem Meets.endsAs {y : Option Result} (h : Meets f (Through f fun _ _ => False) a y) :
    Meets f (EndsAs f) a y := by
  refine h.mono fun a' r hr => ?_
  cases r with
  | next t => exact hr.elim
  | jump | returned | trapped | stuck => exact hr

theorem Meets.of_refines {y : Option Result} {P P' : α → Result → Prop} (h : Meets f P a x)
    (hr : Refines Le x y) (stuck : ∀ a', P a' .stuck → Iteration.iter f a' = some .stuck)
    (hP : ∀ a' r r', P a' r → Related Le r r' → P' a' r') : Meets f P' a y := by
  cases hr with
  | stuck y =>
    cases h with
    | stuck _ h => exact .stuck _ h
    | comes hs h => exact .stuck _ (by rw [iter_of_steps hs, stuck _ h])
  | forever =>
    cases h with
    | stuck _ h => exact .stuck _ h
    | forever h => exact .forever h
  | ends hrel =>
    cases h with
    | stuck _ h => exact .stuck _ h
    | comes hs h => exact .comes hs (hP _ _ _ h hrel)

end Meets

theorem iter_eq_bind {γ δ : Type} (h : γ → Option (γ ⊕ δ)) (c : γ) :
    iter h c = (h c).bind (Sum.elim (iter h) some) := by
  cases hc : h c with
  | none => exact iter_of_none hc
  | some r =>
    cases r with
    | inl c' => exact iter_of_inl hc
    | inr d => exact iter_of_inr hc

/-! ### Variables and their types -/

/-- Only known variables hold values, and they hold values of their types. -/
def Proper (ls : Locals) (s : State) : Prop :=
  ∀ id v, s.locals id = some v → ∃ var, ls.get? id = some var ∧ v.Has var.valueType

section Proper

variable {ls ls' : Locals}

theorem Proper.fitting (h : Proper ls s) : Fitting ls s := by
  intro id var v hid hv
  obtain ⟨var', hvar', ht⟩ := h id v hv
  rw [hid] at hvar'
  cases hvar'
  exact ht

theorem Proper.forget (h : Proper ls s) (K : LocalId → Prop) : Proper ls (s.forget K) :=
  fun id v hv => h id v (State.forget_locals_eq_some_iff.1 hv).2

theorem Proper.withStack (h : Proper ls s) (l : List Value) : Proper ls (s.withStack l) := h

theorem Proper.unknown (h : Proper ls s) (hid : ls.get? id = none) : s.locals id = none := by
  cases hv : s.locals id with
  | none => rfl
  | some v =>
    obtain ⟨var, hvar, _⟩ := h id v hv
    rw [hid] at hvar
    cases hvar

theorem Proper.mono (h : Proper ls s) (hls : ∀ {id v}, ls.get? id = some v → ls'.get? id = some v) :
    Proper ls' s := by
  intro id v hv
  obtain ⟨var, hvar, ht⟩ := h id v hv
  exact ⟨var, hls hvar, ht⟩

theorem Proper.set (h : Proper ls s) (hv : ∃ var, ls.get? id = some var ∧ v.Has var.valueType) :
    Proper ls (s.set id v) := by
  intro i x hx
  by_cases hi : i = id
  · subst hi
    rw [State.set_locals_self] at hx
    cases hx
    exact hv
  · rw [State.set_locals_of_ne _ _ hi] at hx
    exact h i x hx

theorem Proper.keeps (h : Proper ls s) (hk : Keeps ls s t) : Proper ls t := by
  intro id v hv
  cases hid : ls.get? id with
  | none =>
    rw [hk.unknown id hid, h.unknown hid] at hv
    cases hv
  | some var => exact ⟨var, rfl, hk.fitting id var v hid hv⟩

end Proper

end Machine

/-! ### Runs of typed code -/

section Runs

variable {stack out : StackType} {b : Body}

section

variable (h : R.Leads stack b out) (ht : HasTypes s.stack stack) (hp : Proper R.checker.locals s)

include h ht hp

theorem Regime.Leads.ends {res : Result} (hr : exec w b s = some res) :
    ∃ r, (∀ st, r = some st → R.Fits st out) ∧ Ends R.checker R.loops r [] s res := by
  obtain ⟨r, hb, hst⟩ := h.types
  exact ⟨r, hst, exec_ends w b hb (append_nil _).symm ht hp.fitting hr⟩

theorem Regime.Leads.next (hr : exec w b s = some (.next t)) :
    HasTypes t.stack out ∧ Proper R.checker.locals t := by
  obtain ⟨r, hst, he⟩ := h.ends ht hp hr
  cases he with
  | next reached stack types keeps =>
    rw [append_nil] at stack
    exact ⟨stack ▸ types.of_fits (hst _ reached), hp.keeps keeps⟩

theorem Regime.Leads.jump (hr : exec w b s = some (.jump l t)) :
    ∃ frame ∈ R.loops, frame.label = l := by
  obtain ⟨r, hst, he⟩ := h.ends ht hp hr
  cases he with
  | jump target _ _ _ =>
    exact ⟨_, mem_of_find?_eq_some target, by simpa using find?_some target⟩

end

theorem Regime.Stops.not_next (h : R.Stops stack b) (ht : HasTypes s.stack stack)
    (hp : Proper R.checker.locals s) : exec w b s ≠ some (.next t) := by
  intro hr
  cases exec_ends w b h.types (append_nil _).symm ht hp.fitting hr with
  | next reached _ _ _ => cases reached

end Runs

/-! ### Walks -/

/-- Two exits of the same kind, with related targets. -/
inductive Exit.Alike (M : NodeId → NodeId → Prop) : Exit → Exit → Prop
  | seq {n n' : NodeId} (h : M n n') : Alike M (.seq n) (.seq n')
  | branch {n m n' m' : NodeId} (hn : M n n') (hm : M m m') :
      Alike M (.branch n m) (.branch n' m')
  | ret : Alike M .ret .ret

section Outputs

variable {n m : NodeId}

theorem Exit.mem_seq (h : e = .seq n) : n ∈ e.outputs := by
  simp [h, outputs]

theorem Exit.mem_left (h : e = .branch n m) : n ∈ e.outputs := by
  simp [h, outputs]

theorem Exit.mem_right (h : e = .branch n m) : m ∈ e.outputs := by
  simp [h, outputs]

end Outputs

namespace Machine

def follow : Exit → Result → (NodeId × State) ⊕ Result
  | .seq next, .next s => .inl (next, s)
  | .branch ifTrue ifFalse, .next s =>
    match s.stack with
    | .i32 c :: rest => .inl (if c ≠ 0 then ifTrue else ifFalse, s.withStack rest)
    | _ => .inr .stuck
  | .ret, .next s => .inr (.returned s)
  | _, r => .inr r

theorem follow_of_not_next (e : Exit) (h : ∀ t, r ≠ .next t) : follow e r = .inr r := by
  cases r with
  | next t => exact absurd rfl (h t)
  | jump | returned | trapped | stuck => cases e <;> rfl

/-- Control goes on to a successor from a body that ran to its end. -/
theorem follow_eq_inl (h : follow e r = .inl p) :
    p.1 ∈ e.outputs ∧ ∃ t rest, r = .next t ∧ p.2 = t.withStack rest := by
  cases r with
  | next t =>
    cases e with
    | ret => cases h
    | seq n =>
      cases h
      exact ⟨mem_seq rfl, t, t.stack, rfl, rfl⟩
    | branch n m =>
      simp only [follow] at h
      split at h
      · cases h
        refine ⟨?_, t, _, rfl, rfl⟩
        split
        · exact mem_left rfl
        · exact mem_right rfl
      · cases h
  | jump | returned | trapped | stuck =>
    rw [follow_of_not_next _ (by simp)] at h
    cases h

/-- A walk ends as the body does, or with a return, or for want of a condition. -/
theorem follow_eq_inr {r' : Result} (h : follow e r = .inr r') :
    r = r' ∧ (∀ t, r ≠ .next t) ∨ r' = .stuck ∨ ∃ t, r' = .returned t := by
  cases r with
  | next t =>
    cases e with
    | seq n => cases h
    | ret => cases h; exact .inr (.inr ⟨t, rfl⟩)
    | branch n m =>
      simp only [follow] at h
      split at h <;> cases h
      exact .inr (.inl rfl)
  | jump | returned | trapped | stuck =>
    rw [follow_of_not_next _ (by simp)] at h
    cases h
    exact .inl ⟨rfl, by simp⟩

theorem follow_eq_jump (h : follow e r = .inr (.jump l t)) : r = .jump l t := by
  rcases follow_eq_inr h with ⟨hr, _⟩ | ⟨⟨⟩⟩ | ⟨_, ⟨⟩⟩
  exact hr

theorem follow_ne_next : follow e r ≠ .inr (.next t) := by
  intro h
  rcases follow_eq_inr h with ⟨hr, hne⟩ | ⟨⟨⟩⟩ | ⟨_, ⟨⟩⟩
  exact hne t hr

end Machine

namespace Chart

open Iteration

variable {next ifTrue ifFalse id : NodeId} {b : Block}

/-- The step of a walk: the body of a block runs, without what earlier blocks left in the variables
of `K`. -/
noncomputable def step (K : LocalId → Prop) (G : Chart) (w : World) (p : NodeId × State) :
    Option ((NodeId × State) ⊕ Result) :=
  match G.block? p.1 with
  | none => some (.inr .stuck)
  | some b => (exec w b.body (p.2.forget K)).map (follow b.exit)

/-- The walk over a chart from a block on. -/
noncomputable def walk (K : LocalId → Prop) (G : Chart) (w : World) (id : NodeId) (s : State) :
    Option Result :=
  iter (G.step K w) (id, s)

abbrev Tracks (K : LocalId → Prop) (G : Chart) (w : World) (N : NodeId × State → State → Prop) :
    NodeId × State → Option Result → Prop :=
  Meets (G.step K w) (Through (G.step K w) N)

theorem step_of_block (hb : G.block? id = some b) :
    G.step K w (id, s) = (exec w b.body (s.forget K)).map (follow b.exit) := by
  simp [step, hb]

theorem goes_seq (hb : G.block? id = some b) (he : b.exit = .seq next)
    (hr : exec w b.body (s.forget K) = some (.next t)) : Goes (G.step K w) (id, s) (next, t) := by
  rw [Goes, step_of_block hb, hr, he]
  rfl

theorem goes_branch (hb : G.block? id = some b) (he : b.exit = .branch ifTrue ifFalse)
    (hr : exec w b.body (s.forget K) = some (.next t)) {c : Int32} {rest : List Value}
    (hs : t.stack = .i32 c :: rest) :
    Goes (G.step K w) (id, s) (if c ≠ 0 then ifTrue else ifFalse, t.withStack rest) := by
  rw [Goes, step_of_block hb, hr, he]
  simp [follow, hs]

theorem targets_of_goes {q : NodeId × State} (h : Goes (G.step K w) p q) : G.Targets p.1 q.1 := by
  obtain ⟨i, u⟩ := p
  cases hb : G.block? i with
  | none => simp [Goes, step, hb] at h
  | some b =>
    refine ⟨b, hb, ?_⟩
    rw [Goes, step_of_block hb, Option.map_eq_some_iff] at h
    obtain ⟨r, _, hr⟩ := h
    exact (follow_eq_inl hr).1

theorem meets_begin (hb : G.block? id = some b) {x₀ : Option Result} {k : State → Option Result}
    (hbody : exec w b.body (s.forget K) = andThen x₀ k) (hx : Refines Le x₀ x) :
    G.Tracks K w (fun a t => a = (id, s) ∧ ∃ t₁, x₀ = some (.next t₁) ∧ Le t₁ t) (id, s) x := by
  have hstep := step_of_block (w := w) (K := K) (s := s) hb
  have ends : ∀ {r r' : Result}, x₀ = some r → (∀ t, r ≠ .next t) → Related Le r r' →
      EndsAs (G.step K w) (id, s) r' := by
    intro r r' hr hne hrel
    refine ⟨r, ?_, hrel⟩
    rw [hstep, hbody, hr]
    cases r with
    | next t => exact absurd rfl (hne t)
    | jump | returned | trapped | stuck => cases b.exit <;> rfl
  cases hx with
  | stuck x =>
    refine .stuck _ (iter_of_inr ?_)
    rw [hstep, hbody, andThen_stuck, Option.map_some, follow_of_not_next _ (by simp)]
  | forever => exact .forever (iter_of_none (by rw [hstep, hbody]; rfl))
  | ends hrel =>
    refine .here ?_
    cases hrel with
    | next h => exact ⟨rfl, _, rfl, h⟩
    | jump l h => exact ends rfl (by simp) (.jump l h)
    | returned h => exact ends rfl (by simp) (.returned h)
    | trapped h => exact ends rfl (by simp) (.trapped h)

theorem meets_body (hb : G.block? id = some b) (hx : Refines Le (exec w b.body (s.forget K)) x) :
    G.Tracks K w (fun a t => a = (id, s) ∧
      ∃ t₁, exec w b.body (s.forget K) = some (.next t₁) ∧ Le t₁ t) (id, s) x :=
  meets_begin hb (andThen_some_next _).symm hx

/-! ### Walks over typed charts -/

/-- Where a walk over a typed chart may be: in front of a block that exists and finds its stack. -/
structure Good (R : Regime) (G : Chart) (p : NodeId × State) : Prop where
  block : ∃ b, G.block? p.1 = some b ∧ HasTypes p.2.stack b.inputStack
  proper : Proper R.checker.locals p.2

theorem Good.types (h : Good R G (id, s)) (hb : G.block? id = some b) :
    HasTypes s.stack b.inputStack := by
  obtain ⟨b', hb', ht⟩ := h.block
  rw [hb] at hb'
  cases hb'
  exact ht

section

variable (h : Good R G (id, s)) (hT : G.Typed R) (hb : G.block? id = some b)

include h hT hb

theorem Good.seq (he : b.exit = .seq next) (hr : exec w b.body (s.forget K) = some (.next t)) :
    HasTypes t.stack b.outputStack ∧ Proper R.checker.locals t :=
  ((hT.blocks hb).seq he).next (s := s.forget K) (h.types hb) (h.proper.forget K) hr

theorem Good.branch (he : b.exit = .branch ifTrue ifFalse)
    (hr : exec w b.body (s.forget K) = some (.next t)) :
    ∃ c rest, t.stack = .i32 c :: rest ∧ HasTypes rest b.outputStack ∧ Proper R.checker.locals t := by
  obtain ⟨ht, hp⟩ := ((hT.blocks hb).branch he).next (s := s.forget K) (h.types hb)
    (h.proper.forget K) hr
  obtain ⟨v, rest, hs, hv, hrest⟩ := ht.pop
  obtain ⟨c, rfl⟩ := hv.eq_i32 rfl
  exact ⟨c, rest, hs, hrest, hp⟩

theorem Good.ret (he : b.exit = .ret) : exec w b.body (s.forget K) ≠ some (.next t) :=
  ((hT.blocks hb).ret he).not_next (s := s.forget K) (h.types hb) (h.proper.forget K)

end

theorem Good.edge (hT : G.Typed R) (hC : G.Closed) (hb : G.block? id = some b)
    (hout : out ∈ b.exit.outputs) (ht : HasTypes t.stack b.outputStack)
    (hp : Proper R.checker.locals t) : Good R G (out, t) := by
  obtain ⟨b', hb'⟩ := hC.targets id out ⟨b, hb, hout⟩
  exact ⟨⟨b', hb', ht.of_fits (hT.edges hb hout hb')⟩, hp⟩

/-- **Walks over typed charts stay well-typed.** -/
theorem Good.goes (h : Good R G (id, s)) (hT : G.Typed R) (hC : G.Closed)
    (hg : Goes (G.step K w) (id, s) p) : Good R G p := by
  obtain ⟨b, hb, _⟩ := h.block
  rw [Goes, step_of_block hb, Option.map_eq_some_iff] at hg
  obtain ⟨r, hr, hp⟩ := hg
  obtain ⟨hout, t, _, rfl, _⟩ := follow_eq_inl hp
  cases he : b.exit with
  | ret => exact absurd hr (h.ret hT hb he)
  | seq next =>
    obtain ⟨ht, hpr⟩ := h.seq hT hb he hr
    rw [he] at hp
    cases hp
    exact .edge hT hC hb hout ht hpr
  | branch ifTrue ifFalse =>
    obtain ⟨c, rest, hs, ht, hpr⟩ := h.branch hT hb he hr
    rw [he] at hp
    simp only [follow, hs] at hp
    cases hp
    exact .edge (t := t.withStack rest) hT hC hb hout ht hpr

/-! ### Charts in place of others -/

section Refinement

variable {G' : Chart} {M : NodeId → NodeId → Prop}

/-- A place of a walk, and a place of another one: the two blocks belong together, and the second state
has all that the first one has left after forgetting. -/
structure Beside (R : Regime) (K : LocalId → Prop) (G : Chart) (M : NodeId → NodeId → Prop)
    (p q : NodeId × State) : Prop where
  blocks : M p.1 q.1
  good : Good R G p
  le : Le (p.2.forget K) q.2

abbrev Met (R : Regime) (K : LocalId → Prop) (G G' : Chart) (w : World) (M : NodeId → NodeId → Prop)
    (p q : NodeId × State) : Prop :=
  Meets (G.step K w) (Along (G.step K w) (Beside R K G M) (EndsAs (G.step K w))) p (G'.step K w q)

theorem walk_refines (step : ∀ p q, Beside R K G M p q → Met R K G G' w M p q)
    (h : Beside R K G M (i, s) (j, s')) : Refines Le (G.walk K w i s) (G'.walk K w j s') :=
  (Meets.iter step h).refines

theorem Met.of_body (hb' : G'.block? j = some b') {N : NodeId × State → State → Prop}
    (h : G.Tracks K w N p (exec w b'.body (s'.forget K)))
    (hN : ∀ a t, N a t → Along (G.step K w) (Beside R K G M) (EndsAs (G.step K w)) a
      (follow b'.exit (.next t))) :
    Met R K G G' w M p (j, s') := by
  unfold Met
  rw [step_of_block hb']
  refine h.map fun a r hr => ?_
  cases r with
  | next t => exact hN a t hr
  | jump | returned | trapped | stuck =>
    rw [follow_of_not_next _ (by simp)]
    exact hr

section

variable (hT : G.Typed R) (hC : G.Closed) (hb : G.block? i = some b)

include hT hC hb

theorem along_branch {n m n' m' : NodeId} (hg : Good R G (i, s)) (he : b.exit = .branch n m)
    (hr : exec w b.body (s.forget K) = some (.next t₁)) (hn : M n n') (hm : M m m')
    (hle : Le (t₁.forget K) t) :
    Along (G.step K w) (Beside R K G M) (EndsAs (G.step K w)) (i, s)
      (follow (.branch n' m') (.next t)) := by
  obtain ⟨c, rest, hs, _, _⟩ := hg.branch hT hb he hr
  have hgo := goes_branch hb he hr hs
  have hst : t.stack = .i32 c :: rest := by
    rw [hle.stack_eq, State.forget_stack, hs]
  simp only [follow, hst]
  refine ⟨_, hgo, ?_, hg.goes hT hC hgo, hle.withStack rest⟩
  by_cases hc : c ≠ 0
  · rw [if_pos hc, if_pos hc]
    exact hn
  · rw [if_neg hc, if_neg hc]
    exact hm

theorem along_alike (hg : Good R G (i, s)) (hr : exec w b.body (s.forget K) = some (.next t₁))
    (he : Alike M b.exit e) (hle : Le t₁ t) :
    Along (G.step K w) (Beside R K G M) (EndsAs (G.step K w)) (i, s) (follow e (.next t)) := by
  generalize hx : b.exit = x at he
  cases he with
  | seq h =>
    have hgo := goes_seq hb hx hr
    exact ⟨_, hgo, h, hg.goes hT hC hgo, hle.forget_left⟩
  | branch h₁ h₂ => exact along_branch hT hC hb hg hx hr h₁ h₂ hle.forget_left
  | ret => exact absurd hr (hg.ret hT hb hx)

theorem met_alike (hb' : G'.block? j = some b') (hbody : exec w b'.body = exec w b.body)
    (he : Alike M b.exit b'.exit) (hg : Good R G (i, s)) (hle : Le (s.forget K) s') :
    Met R K G G' w M (i, s) (j, s') := by
  refine Met.of_body hb' (meets_body hb ?_) ?_
  · rw [hbody]
    exact exec_le w _ hle.forget_right
  · rintro _ t ⟨rfl, t₁, ht₁, hlt⟩
    exact along_alike hT hC hb hg ht₁ he hlt

end

theorem alike_refl (h : ∀ n ∈ e.outputs, M n n) : Alike M e e := by
  cases e with
  | seq n => exact .seq (h n (by simp [outputs]))
  | branch n m => exact .branch (h n (by simp [outputs])) (h m (by simp [outputs]))
  | ret => exact .ret

end Refinement

def Improves (R : Regime) (K : LocalId → Prop) (G G' : Chart) : Prop :=
  ∀ w s s', Good R G (G.entry, s) → Le (s.forget K) s' →
    Refines Le (G.walk K w G.entry s) (G'.walk K w G'.entry s')

end Chart

end Structurer
