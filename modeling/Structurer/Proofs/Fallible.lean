/-
**Work that can fail.**

How steps in a row, searches in lists and loops succeed, and with what.
-/

namespace Structurer.Fallible

open List

variable {ε ε' α β : Type} {a : α} {l : List α} {p : α → Except ε Bool}

theorem bind_eq_ok_iff {x : Except ε α} {f : α → Except ε β} {b : β} :
    (x >>= f) = .ok b ↔ ∃ a, x = .ok a ∧ f a = .ok b := by
  cases x with
  | error e => simp [bind, Except.bind]
  | ok a => simp [bind, Except.bind]

theorem bind_eq_error_iff {x : Except ε α} {f : α → Except ε β} {e : ε} :
    (x >>= f) = .error e ↔ x = .error e ∨ ∃ a, x = .ok a ∧ f a = .error e := by
  cases x with
  | error e => simp [bind, Except.bind]
  | ok a => simp [bind, Except.bind]

@[simp] theorem ok_bind (a : α) (f : α → Except ε β) : (Except.ok a >>= f) = f a := rfl

theorem mapError_eq_ok_iff {f : ε → ε'} {x : Except ε α} : x.mapError f = .ok a ↔ x = .ok a := by
  cases x with
  | error e =>
    show Except.error (f e) = .ok a ↔ Except.error e = .ok a
    simp
  | ok b =>
    show Except.ok b = .ok a ↔ Except.ok b = .ok a
    simp

theorem mapError_eq_error_iff {f : ε → ε'} {x : Except ε α} {e' : ε'} :
    x.mapError f = .error e' ↔ ∃ e, x = .error e ∧ f e = e' := by
  cases x with
  | error e =>
    show Except.error (f e) = .error e' ↔ _
    simp
  | ok b =>
    show Except.ok b = .error e' ↔ _
    simp

theorem forM_eq_ok_iff {f : α → Except ε PUnit} : l.forM f = .ok () ↔ ∀ a ∈ l, f a = .ok () := by
  induction l with
  | nil => simp [List.forM, pure, Except.pure]
  | cons a l ih =>
    show (f a >>= fun _ => l.forM f) = .ok () ↔ _
    rw [bind_eq_ok_iff]
    simp only [ih, mem_cons, forall_eq_or_imp]
    exact ⟨fun ⟨_, ha, hl⟩ => ⟨ha, hl⟩, fun ⟨ha, hl⟩ => ⟨(), ha, hl⟩⟩

theorem exists_of_forM_eq_error {f : α → Except ε Unit} {e : ε} (h : l.forM f = .error e) :
    ∃ a ∈ l, f a = .error e := by
  induction l with
  | nil => cases h
  | cons a l ih =>
    rcases bind_eq_error_iff.1 h with ha | ⟨_, -, hl⟩
    · exact ⟨a, .head _, ha⟩
    · obtain ⟨b, hb, hfails⟩ := ih hl
      exact ⟨b, .tail _ hb, hfails⟩

theorem toOption_bind (x : Except ε α) (f : α → Except ε β) :
    (x >>= f).toOption = x.toOption.bind fun a => (f a).toOption := by
  cases x <;> rfl

theorem toOption_mapError (f : ε → ε') (x : Except ε α) : (x.mapError f).toOption = x.toOption := by
  cases x <;> rfl

theorem toOption_eq_some_iff {x : Except ε α} : x.toOption = some a ↔ x = .ok a := by
  cases x <;> simp [Except.toOption]

/-! ### Work with a property -/

def Works (x : Except ε α) (Q : α → Prop) : Prop := ∃ a, x = .ok a ∧ Q a

section Works

variable {x : Except ε α} {Q Q' : α → Prop}

theorem Works.of_eq (h : x = .ok a) (hQ : Q a) : Works x Q := ⟨a, h, hQ⟩

theorem Works.pure (h : Q a) : Works (pure a : Except ε α) Q := ⟨a, rfl, h⟩

theorem Works.nothing {P : β → Prop} :
    Works (Pure.pure none : Except ε (Option β)) fun r => ∀ b, r = some b → P b :=
  ⟨none, rfl, fun b hb => by cases hb⟩

theorem Works.fails {P : Prop} : Works (Pure.pure false : Except ε Bool) fun r => r = true → P :=
  ⟨false, rfl, fun h => by cases h⟩

theorem Works.mono (h : Works x Q) (hQ : ∀ a, Q a → Q' a) : Works x Q' := by
  obtain ⟨a, hx, ha⟩ := h
  exact ⟨a, hx, hQ a ha⟩

theorem Works.bind {f : α → Except ε β} {P : β → Prop} (hx : Works x Q)
    (hf : ∀ a, Q a → Works (f a) P) : Works (x >>= f) P := by
  obtain ⟨a, rfl, ha⟩ := hx
  exact hf a ha

theorem Works.andM {x y : Except ε Bool} {P S : Prop} (hx : Works x fun r => r = true → P)
    (hy : P → Works y fun r => r = true → S) : Works (x <&&> y) fun r => r = true → P ∧ S := by
  obtain ⟨a, rfl, ha⟩ := hx
  cases a with
  | false => exact ⟨false, rfl, fun h => by cases h⟩
  | true =>
    obtain ⟨b, rfl, hb⟩ := hy (ha rfl)
    exact ⟨b, rfl, fun h => ⟨ha rfl, hb h⟩⟩

theorem Works.mapM {f : α → Except ε β} (h : ∀ a ∈ l, Works (f a) fun _ => True) :
    Works (l.mapM f) fun _ => True := by
  induction l with
  | nil => exact .pure trivial
  | cons a l ih =>
    rw [mapM_cons]
    refine (h a (.head _)).bind fun b _ => ?_
    exact (ih fun a ha => h a (.tail _ ha)).bind fun bs _ => .pure trivial

theorem mapM_eq_ok {f : α → Except ε β} {r : α → β} (h : ∀ a ∈ l, f a = .ok (r a)) :
    l.mapM f = .ok (l.map r) := by
  induction l with
  | nil => rfl
  | cons a l ih =>
    rw [mapM_cons, h a (.head _), ih fun a ha => h a (.tail _ ha)]
    rfl

theorem eq_map_of_mapM {f : α → Except ε β} {r : α → β} (hr : ∀ {a b}, f a = .ok b → b = r a)
    {bs : List β} (h : l.mapM f = .ok bs) : bs = l.map r := by
  induction l generalizing bs with
  | nil =>
    cases h
    rfl
  | cons a l ih =>
    rw [mapM_cons] at h
    obtain ⟨b, hb, h⟩ := bind_eq_ok_iff.1 h
    obtain ⟨bs, hbs, h⟩ := bind_eq_ok_iff.1 h
    cases h
    rw [map_cons, hr hb, ih hbs]

theorem allM_eq_ok {q : α → Bool} (h : ∀ a ∈ l, p a = .ok (q a)) : l.allM p = .ok (l.all q) := by
  induction l with
  | nil => rfl
  | cons a l ih =>
    show (p a >>= fun t => bif t then l.allM p else Pure.pure false) = _
    rw [h a (.head _), ok_bind, ih fun a ha => h a (.tail _ ha), all_cons]
    cases q a <;> rfl

theorem Works.findSomeM? {f : α → Except ε (Option β)} {P : β → Prop}
    (h : ∀ a ∈ l, Works (f a) fun r => ∀ b, r = some b → P b) :
    Works (l.findSomeM? f) fun r => ∀ b, r = some b → P b := by
  induction l with
  | nil => exact ⟨none, rfl, fun b hb => by cases hb⟩
  | cons a l ih =>
    obtain ⟨r, hr, hP⟩ := h a (.head _)
    show Works (f a >>= fun r => match r with
      | some b => Pure.pure (some b)
      | none => l.findSomeM? f) _
    rw [hr]
    cases r with
    | some b => exact ⟨some b, rfl, hP⟩
    | none => exact ih fun a ha => h a (.tail _ ha)

theorem Works.findM? {P : α → Prop} (h : ∀ a ∈ l, Works (p a) fun r => r = true → P a) :
    Works (l.findM? p) fun r => ∀ a, r = some a → a ∈ l ∧ P a := by
  induction l with
  | nil => exact ⟨none, rfl, fun b hb => by cases hb⟩
  | cons a l ih =>
    obtain ⟨r, hr, hP⟩ := h a (.head _)
    show Works (p a >>= fun r => match r with
      | true => Pure.pure (some a)
      | false => l.findM? p) _
    rw [hr]
    cases r with
    | true => exact ⟨some a, rfl, fun b hb => by cases hb; exact ⟨.head _, hP rfl⟩⟩
    | false =>
      refine (ih fun a ha => h a (.tail _ ha)).mono ?_
      intro r hr b hb
      exact ⟨.tail _ (hr b hb).1, (hr b hb).2⟩

theorem findSomeM?_eq_none_iff {f : α → Except ε (Option β)} :
    l.findSomeM? f = .ok none ↔ ∀ a ∈ l, f a = .ok none := by
  induction l with
  | nil => simp [pure, Except.pure]
  | cons a l ih =>
    rw [findSomeM?_cons, bind_eq_ok_iff, forall_mem_cons, ← ih]
    constructor
    · rintro ⟨r, hr, h⟩
      cases r with
      | some b => cases h
      | none => exact ⟨hr, h⟩
    · rintro ⟨hr, h⟩
      exact ⟨none, hr, h⟩

theorem findSomeM?_map {γ : Type} {f : α → β} {p : β → Except ε (Option γ)} (l : List α) :
    (l.map f).findSomeM? p = l.findSomeM? fun a => p (f a) := by
  induction l with
  | nil => rfl
  | cons a l ih =>
    rw [map_cons, List.findSomeM?, List.findSomeM?]
    congr 1
    funext r
    cases r with
    | none => exact ih
    | some c => rfl

theorem eq_false_of_findM? (h : l.findM? p = .ok none) : ∀ a ∈ l, p a = .ok false := by
  induction l with
  | nil => simp
  | cons a l ih =>
    rw [List.findM?, bind_eq_ok_iff] at h
    obtain ⟨r, hr, h⟩ := h
    cases r with
    | true => cases h
    | false => exact forall_mem_cons.2 ⟨hr, ih h⟩

theorem Works.anyM {P : α → Prop} (h : ∀ a ∈ l, Works (p a) fun r => r = true → P a) :
    Works (l.anyM p) fun r => r = true → ∃ a ∈ l, P a := by
  induction l with
  | nil => exact ⟨false, rfl, fun hb => by cases hb⟩
  | cons a l ih =>
    obtain ⟨r, hr, hP⟩ := h a (.head _)
    show Works (p a >>= fun r => match r with
      | true => Pure.pure true
      | false => l.anyM p) _
    rw [hr]
    cases r with
    | true => exact ⟨true, rfl, fun _ => ⟨a, .head _, hP rfl⟩⟩
    | false =>
      refine (ih fun a ha => h a (.tail _ ha)).mono ?_
      intro r hr hb
      obtain ⟨b, hb, hPb⟩ := hr hb
      exact ⟨b, .tail _ hb, hPb⟩

theorem filterM_eq_ok {q : α → Bool} (h : ∀ a ∈ l, p a = .ok (q a)) :
    l.filterM p = .ok (l.filter q) := by
  have aux : ∀ (l acc : List α), (∀ a ∈ l, p a = .ok (q a)) →
      l.filterAuxM p acc = .ok ((l.filter q).reverse ++ acc) := by
    intro l
    induction l with
    | nil => intro acc _; rfl
    | cons a l ih =>
      intro acc hl
      show (p a >>= fun b => l.filterAuxM p (cond b (a :: acc) acc)) = _
      rw [hl a (.head _), ok_bind, ih _ fun a ha => hl a (.tail _ ha)]
      cases hq : q a <;> simp [hq]
  show (l.filterAuxM p [] >>= fun as => Pure.pure as.reverse) = _
  rw [aux l [] h, ok_bind]
  simp only [append_nil, reverse_reverse]
  rfl

theorem Works.foldlM {f : β → α → Except ε β} {I : List α → β → Prop} {b : β}
    (step : ∀ done a rest b, l = done ++ a :: rest → I done b → Works (f b a) (I (done ++ [a])))
    (h : I [] b) : Works (l.foldlM f b) (I l) := by
  have aux : ∀ (rest done : List α) (b : β), l = done ++ rest → I done b →
      Works (rest.foldlM f b) (I l) := by
    intro rest
    induction rest with
    | nil =>
      intro done b hl hI
      rw [append_nil] at hl
      subst hl
      exact .pure hI
    | cons a rest ih =>
      intro done b hl hI
      rw [foldlM_cons]
      refine (step done a rest b hl hI).bind fun b' hI' => ?_
      exact ih (done ++ [a]) b' (by rw [hl]; simp) hI'
  exact aux l [] b rfl h

end Works

/-! ### Loops that keep the best candidate -/

section Candidates

variable {κ : Type} {fits : α → Prop} {key : α → κ} {size : α → Nat} {keys : List κ}

/-- What looking for a candidate under one key makes of the best candidate so far: it is kept unless the
new one is larger. -/
inductive Improved (fits : α → Prop) (key : α → κ) (size : α → Nat) (best : Option α) (k : κ) :
    Option α → Prop
  | kept (h : ∀ c, fits c → key c = k → ∃ b, best = some b ∧ size c ≤ size b) :
      Improved fits key size best k best
  | taken {c : α} (hfits : fits c) (hkey : key c = k)
      (hmost : ∀ c', fits c' → key c' = k → size c' ≤ size c)
      (hlarger : ∀ b, best = some b → size b < size c) : Improved fits key size best k (some c)

/-- The largest candidate with a key in a list, of equally large ones the first in the order of the
keys. -/
structure Chosen (fits : α → Prop) (key : α → κ) (size : α → Nat) (keys : List κ) (best : Option α) :
    Prop where
  none : best = none → ∀ c, fits c → key c ∉ keys
  sound : ∀ {b}, best = some b → fits b
  largest : ∀ {b}, best = some b → ∀ c, fits c → key c ∈ keys → size c ≤ size b
  first : ∀ {b}, best = some b → ∃ before after, keys = before ++ key b :: after ∧
    ∀ c, fits c → key c ∈ before → size c < size b

theorem Chosen.improved {best r : Option α} {k : κ} (h : Chosen fits key size keys best)
    (hr : Improved fits key size best k r) : Chosen fits key size (keys ++ [k]) r := by
  have hcases : ∀ {c}, key c ∈ keys ++ [k] → key c ∈ keys ∨ key c = k := by
    intro c hc
    exact (mem_append.1 hc).imp_right mem_singleton.1
  cases hr with
  | kept hkeep =>
    refine ⟨fun hnone c hc hmem => ?_, h.sound, fun {b} hb c hc hmem => ?_, fun {b} hb => ?_⟩
    · rcases hcases hmem with hmem | hk
      · exact h.none hnone c hc hmem
      · obtain ⟨b, hb, _⟩ := hkeep c hc hk
        rw [hnone] at hb
        cases hb
    · rcases hcases hmem with hmem | hk
      · exact h.largest hb c hc hmem
      · obtain ⟨b', hb', hle⟩ := hkeep c hc hk
        cases hb.symm.trans hb'
        exact hle
    · obtain ⟨before, after, hkeys, hbefore⟩ := h.first hb
      exact ⟨before, after ++ [k], by simp [hkeys], hbefore⟩
  | @taken c hfits hkey hmost hlarger =>
    -- what was the best before is smaller, and so is everything that was not larger than it
    have hless : ∀ c', fits c' → key c' ∈ keys → size c' < size c := by
      intro c' hc' hmem
      cases best with
      | none => exact absurd hmem (h.none rfl c' hc')
      | some b => exact Nat.lt_of_le_of_lt (h.largest rfl c' hc' hmem) (hlarger b rfl)
    refine ⟨nofun, fun {b} hb => ?_, fun {b} hb c' hc' hmem => ?_, fun {b} hb => ?_⟩
    · cases hb
      exact hfits
    · cases hb
      rcases hcases hmem with hmem | hk
      · exact Nat.le_of_lt (hless c' hc' hmem)
      · exact hmost c' hc' hk
    · cases hb
      exact ⟨keys, [], by rw [hkey], hless⟩

/-- **A loop that looks for a candidate under every key of a list ends with the largest one.** -/
theorem Works.choose {f : Option α → κ → Except ε (Option α)}
    (step : ∀ k ∈ keys, ∀ best, Works (f best k) (Improved fits key size best k)) :
    Works (keys.foldlM f none) (Chosen fits key size keys) := by
  refine Works.foldlM (I := Chosen fits key size) (fun done k rest best hkeys hbest => ?_)
    ⟨fun _ _ _ => not_mem_nil, nofun, nofun, nofun⟩
  have hk : k ∈ keys := by simp [hkeys]
  exact (step k hk best).mono fun r hr => hbest.improved hr

end Candidates

end Structurer.Fallible
