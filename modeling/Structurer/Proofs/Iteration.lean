/-
**Iteration.**

A loop in code and a walk along the edges of a graph are the same thing: a step that ends with a
result or goes on from a new state, taken again and again.  A step may also fail to come to an end
by itself, as the body of a loop does that holds another loop; no result at all is then the result
of the whole, just as it is when the steps go on for ever.

Two iterations are compared by a simulation.  Each step of the second one is matched by at least one
step of the first; since neither can run on without the other, they end together or not at all.
-/

import Mathlib.Logic.Relation

namespace Structurer.Iteration

variable {α β γ δ : Type} {a a' : α} {b : β} {n : Nat} {Inv : α → Prop} {f : α → Option (α ⊕ β)}

def attempt (f : α → Option (α ⊕ β)) : (n : Nat) → α → Option β
  | 0, _ => none
  | n + 1, a =>
    match f a with
    | none => none
    | some (.inr b) => some b
    | some (.inl a') => attempt f n a'

open Classical in
/-- The result of as many steps as it takes, none if no number of steps is enough. -/
noncomputable def iter (f : α → Option (α ⊕ β)) (a : α) : Option β :=
  if h : ∃ b n, attempt f n a = some b then some h.choose else none

/-! ### Bounded iteration -/

theorem attempt_succ_of_inl (h : f a = some (.inl a')) (n : Nat) :
    attempt f (n + 1) a = attempt f n a' := by
  rw [attempt, h]

theorem attempt_succ_of_inr (h : f a = some (.inr b)) (n : Nat) : attempt f (n + 1) a = some b := by
  rw [attempt, h]

theorem attempt_of_none (h : f a = none) (n : Nat) : attempt f n a = none := by
  cases n with
  | zero => rfl
  | succ n => rw [attempt, h]

theorem attempt_mono {m : Nat} (h : attempt f n a = some b) (hnm : n ≤ m) :
    attempt f m a = some b := by
  induction n generalizing a m with
  | zero => simp [attempt] at h
  | succ n ih =>
    obtain ⟨m, rfl⟩ : ∃ k, m = k + 1 := ⟨m - 1, by omega⟩
    cases hf : f a with
    | none => simp [attempt, hf] at h
    | some r =>
      cases r with
      | inr b' =>
        rw [attempt_succ_of_inr hf] at h ⊢
        exact h
      | inl a' =>
        rw [attempt_succ_of_inl hf] at h ⊢
        exact ih h (by omega)

theorem attempt_unique {m : Nat} {b' : β} (h : attempt f n a = some b)
    (h' : attempt f m a = some b') : b = b' := by
  have h₁ := attempt_mono h (Nat.le_max_left n m)
  have h₂ := attempt_mono h' (Nat.le_max_right n m)
  exact Option.some.inj (h₁.symm.trans h₂)

/-! ### Iteration -/

section Iter

variable {f' : α → Option (α ⊕ β)}

theorem iter_eq_some_iff : iter f a = some b ↔ ∃ n, attempt f n a = some b := by
  unfold iter
  split
  · next h =>
      obtain ⟨n, hn⟩ := h.choose_spec
      constructor
      · intro hb
        exact ⟨n, hn.trans hb⟩
      · rintro ⟨m, hm⟩
        rw [attempt_unique hn hm]
  · next h =>
      constructor
      · intro hb
        cases hb
      · rintro ⟨n, hn⟩
        exact absurd ⟨b, n, hn⟩ h

theorem iter_eq_none_iff : iter f a = none ↔ ∀ n, attempt f n a = none := by
  constructor
  · intro h n
    cases hn : attempt f n a with
    | none => rfl
    | some b => rw [iter_eq_some_iff.2 ⟨n, hn⟩] at h; cases h
  · intro h
    cases hi : iter f a with
    | none => rfl
    | some b =>
      obtain ⟨n, hn⟩ := iter_eq_some_iff.1 hi
      rw [h n] at hn
      cases hn

theorem iter_of_inl (h : f a = some (.inl a')) : iter f a = iter f a' := by
  cases hi : iter f a' with
  | none =>
    refine iter_eq_none_iff.2 fun n => ?_
    cases n with
    | zero => rfl
    | succ n => rw [attempt_succ_of_inl h, iter_eq_none_iff.1 hi n]
  | some b =>
    obtain ⟨n, hn⟩ := iter_eq_some_iff.1 hi
    exact iter_eq_some_iff.2 ⟨n + 1, by rw [attempt_succ_of_inl h, hn]⟩

theorem iter_of_inr (h : f a = some (.inr b)) : iter f a = some b :=
  iter_eq_some_iff.2 ⟨1, attempt_succ_of_inr h 0⟩

theorem iter_of_none (h : f a = none) : iter f a = none :=
  iter_eq_none_iff.2 (attempt_of_none h)

theorem iter_congr (agree : ∀ a, Inv a → f' a = f a)
    (goOn : ∀ a a', Inv a → f a = some (.inl a') → Inv a') (ha : Inv a) : iter f' a = iter f a := by
  have hattempt : ∀ n a, Inv a → attempt f' n a = attempt f n a := by
    intro n
    induction n with
    | zero => intro a _; rfl
    | succ n ih =>
      intro a ha
      have heq := agree a ha
      rcases hf : f a with _ | a' | b
      · rw [attempt_of_none hf, attempt_of_none (heq.trans hf)]
      · rw [attempt_succ_of_inl hf, attempt_succ_of_inl (heq.trans hf), ih a' (goOn a a' ha hf)]
      · rw [attempt_succ_of_inr hf, attempt_succ_of_inr (heq.trans hf)]
  ext b
  simp only [iter_eq_some_iff, hattempt _ a ha]

theorem iter_invariant {Post : β → Prop} (goOn : ∀ a a', Inv a → f a = some (.inl a') → Inv a')
    (finish : ∀ a b, Inv a → f a = some (.inr b) → Post b) (ha : Inv a) (h : iter f a = some b) :
    Post b := by
  obtain ⟨n, hn⟩ := iter_eq_some_iff.1 h
  clear h
  induction n generalizing a with
  | zero => simp [attempt] at hn
  | succ n ih =>
    cases hf : f a with
    | none => simp [attempt, hf] at hn
    | some r =>
      cases r with
      | inr b' =>
        rw [attempt_succ_of_inr hf] at hn
        cases hn
        exact finish a b ha hf
      | inl a' =>
        rw [attempt_succ_of_inl hf] at hn
        exact ih (goOn a a' ha hf) hn

end Iter

/-! ### Runs of steps -/

def Goes (f : α → Option (α ⊕ β)) (a a' : α) : Prop := f a = some (.inl a')

abbrev Steps (f : α → Option (α ⊕ β)) : α → α → Prop := Relation.ReflTransGen (Goes f)

abbrev Steps₁ (f : α → Option (α ⊕ β)) : α → α → Prop := Relation.TransGen (Goes f)

theorem iter_of_steps (h : Steps f a a') : iter f a = iter f a' := by
  induction h with
  | refl => rfl
  | tail _ hs ih => rw [ih, iter_of_inl hs]

theorem attempt_of_steps₁ (h : Steps₁ f a a') (hn : attempt f n a = some b) :
    ∃ m, m < n ∧ attempt f m a' = some b := by
  have single : ∀ {k : Nat} {x y : α}, Goes f x y → attempt f k x = some b →
      ∃ m, m < k ∧ attempt f m y = some b := by
    intro k x y hs hk
    cases k with
    | zero => simp [attempt] at hk
    | succ k =>
      rw [attempt_succ_of_inl hs] at hk
      exact ⟨k, Nat.lt_succ_self k, hk⟩
  induction h with
  | single hs => exact single hs hn
  | tail _ hs ih =>
    obtain ⟨m, hm, hb⟩ := ih
    obtain ⟨k, hk, hb'⟩ := single hs hb
    exact ⟨k, by omega, hb'⟩

/-! ### Simulation -/

section Simulation

variable {h : γ → Option (γ ⊕ δ)} {bad : β → Prop}

def Fails (bad : β → Prop) (f : α → Option (α ⊕ β)) (a : α) : Prop :=
  ∃ b, iter f a = some b ∧ bad b

theorem Fails.of_steps (hs : Steps f a a') (hf : Fails bad f a') : Fails bad f a := by
  obtain ⟨b, hb, hbad⟩ := hf
  exact ⟨b, by rw [iter_of_steps hs, hb], hbad⟩

variable {Q : α → γ → Prop} {P : α → δ → Prop}

def Matched (f : α → Option (α ⊕ β)) (Q : α → γ → Prop) (P : α → δ → Prop) (a : α) :
    Option (γ ⊕ δ) → Prop
  | none => iter f a = none
  | some (.inr d) => ∃ a', Steps f a a' ∧ P a' d
  | some (.inl c) => ∃ a', Steps₁ f a a' ∧ Q a' c

theorem iter_ne_none_of_matched (step : ∀ a c, Q a c → Fails bad f a ∨ Matched f Q P a (h c))
    {c : γ} (hQ : Q a c) (hn : attempt f n a = some b) (hb : ¬ bad b) : iter h c ≠ none := by
  induction n using Nat.strongRecOn generalizing a c with
  | ind n ih =>
    have hi : iter f a = some b := iter_eq_some_iff.2 ⟨n, hn⟩
    rcases step a c hQ with ⟨b', hb', hbad⟩ | hm
    · rw [hi] at hb'
      cases hb'
      exact absurd hbad hb
    · cases hc : h c with
      | none =>
        rw [hc] at hm
        have hnone : iter f a = none := hm
        rw [hi] at hnone
        cases hnone
      | some r =>
        cases r with
        | inr d => rw [iter_of_inr hc]; exact Option.some_ne_none d
        | inl c' =>
          rw [hc] at hm
          obtain ⟨a', hs, hQ'⟩ := hm
          obtain ⟨m, hmn, hb'⟩ := attempt_of_steps₁ hs hn
          rw [iter_of_inl hc]
          exact ih m hmn hQ' hb'

/-- **Simulation.**  If every step of the second iteration is matched by the first, then so is its
result, and a second iteration that runs on for ever is matched by a first one that does. -/
theorem simulate (step : ∀ a c, Q a c → Fails bad f a ∨ Matched f Q P a (h c)) {c : γ} (hQ : Q a c) :
    Fails bad f a ∨ (iter f a = none ∧ iter h c = none) ∨
      ∃ a' d, Steps f a a' ∧ iter h c = some d ∧ P a' d := by
  cases hc : iter h c with
  | none =>
    cases ha : iter f a with
    | none => exact .inr (.inl ⟨rfl, rfl⟩)
    | some b =>
      by_cases hb : bad b
      · exact .inl ⟨b, ha, hb⟩
      · obtain ⟨n, hn⟩ := iter_eq_some_iff.1 ha
        exact absurd hc (iter_ne_none_of_matched step hQ hn hb)
  | some d =>
    obtain ⟨n, hn⟩ := iter_eq_some_iff.1 hc
    clear hc
    -- along the second iteration; the first one has come as far by `Steps`
    induction n generalizing a c with
    | zero => simp [attempt] at hn
    | succ n ih =>
      rcases step a c hQ with hf | hm
      · exact .inl hf
      · cases hstep : h c with
        | none => simp [attempt, hstep] at hn
        | some r =>
          rw [hstep] at hm
          cases r with
          | inr d' =>
            rw [attempt_succ_of_inr hstep] at hn
            cases hn
            obtain ⟨a', hs, hP⟩ := hm
            exact .inr (.inr ⟨a', d, hs, rfl, hP⟩)
          | inl c' =>
            rw [attempt_succ_of_inl hstep] at hn
            obtain ⟨a', hs, hQ'⟩ := hm
            have hs' : Steps f a a' := hs.to_reflTransGen
            rcases ih hQ' hn with hf | ⟨_, hd⟩ | ⟨a'', d', hs'', hd, hP⟩
            · exact .inl (hf.of_steps hs')
            · cases hd
            · exact .inr (.inr ⟨a'', d', hs'.trans hs'', hd, hP⟩)

end Simulation

end Structurer.Iteration
