/-
**Blocks in place of others.**

Most rules change one block of a chart, so that it does by itself what it did together with blocks
behind it, and those may go away.  The changed block has to serve in the place of the old one: its
code meets the walk over the old chart that starts in the old block.
-/

import Structurer.Proofs.Conditions

namespace Structurer

variable {n j : NodeId} {arm : Arm} {b' : Block} {f : Block → Block}

namespace Machine

variable {w : World} {s : State} {c : Int32} {rest : List Value}

theorem exec_cond (hs : s.stack = .i32 c :: rest) (params results : StackType) (a b : Body) :
    exec w [.cond params results a b] s =
      if c ≠ 0 then exec w a (s.withStack rest) else exec w b (s.withStack rest) := by
  rw [exec_singleton]
  simp only [execInstruction, hs]

theorem exec_brIf (hs : s.stack = .i32 c :: rest) (label : LoopLabel) :
    exec w [.brIf label] s =
      if c ≠ 0 then some (.jump label (s.withStack rest)) else some (.next (s.withStack rest)) := by
  rw [exec_singleton]
  simp only [execInstruction, simple, hs]
  split <;> rfl

theorem exec_br (label : LoopLabel) : exec w [.br label] s = some (.jump label s) := by
  rw [exec_singleton]
  simp [execInstruction, simple]

theorem exec_drop {v : Value} (hs : s.stack = v :: rest) :
    exec w [.drop] s = some (.next (s.withStack rest)) := by
  rw [exec_singleton]
  simp [execInstruction, simple, hs]

theorem exec_loop {params : StackType} (hs : HasTypes s.stack params) (label : LoopLabel)
    (results : StackType) (body : Body) :
    exec w [.loop label params results body] s = rounds label params.length [] (exec w body) s := by
  have hl := hs.length
  rw [exec_singleton]
  simp only [execInstruction, hl, Nat.le_refl, if_true]
  rw [← hl, List.drop_length]

end Machine

namespace Chart

open Machine Iteration

variable {R : Regime} {K : LocalId → Prop} {G G' : Chart} {w : World} {id : NodeId} {b : Block}
  {p p' : NodeId × State} {s s' t : State}

/-! ### Code of blocks -/

def Reaches (R : Regime) (K : LocalId → Prop) (G : Chart) (w : World) (n : NodeId)
    (p : NodeId × State) (t : State) : Prop :=
  ∃ t₁, Goes (G.step K w) p (n, t₁) ∧ Good R G (n, t₁) ∧ Le (t₁.forget K) t

def Chooses (R : Regime) (K : LocalId → Prop) (G : Chart) (w : World) (arm : Arm)
    (p : NodeId × State) (t : State) : Prop :=
  ∃ c rest, t.stack = .i32 c :: rest ∧
    Reaches R K G w (if c ≠ 0 then arm.target else arm.other) p (t.withStack rest)

theorem Good.steps (hT : G.Typed R) (hC : G.Closed) (h : Good R G p)
    (hs : Steps (G.step K w) p p') : Good R G p' := by
  induction hs with
  | refl => exact h
  | @tail q q' _ hg ih =>
    obtain ⟨id, s⟩ := q
    exact ih.goes hT hC hg

theorem meets_seq (hT : G.Typed R) (hC : G.Closed) (hb : G.block? id = some b)
    (he : b.exit = .seq n) (hg : Good R G (id, s)) (hle : Le (s.forget K) s') :
    G.Tracks K w (Reaches R K G w n) (id, s) (exec w b.body s') := by
  refine (meets_body hb (exec_le w _ hle)).through ?_
  rintro a t ⟨rfl, t₁, ht₁, hlt⟩ -
  have hgo := goes_seq hb he ht₁
  exact ⟨t₁, hgo, hg.goes hT hC hgo, hlt.forget_left⟩

theorem meets_ret (hT : G.Typed R) (hb : G.block? id = some b) (he : b.exit = .ret)
    (hg : Good R G (id, s)) (hle : Le (s.forget K) s') (N : NodeId × State → State → Prop) :
    G.Tracks K w N (id, s) (exec w b.body s') := by
  refine (meets_body hb (exec_le w _ hle)).through ?_
  rintro a t ⟨rfl, t₁, ht₁, _⟩ -
  exact absurd ht₁ (hg.ret hT hb he)

theorem arms_cases {e : Exit} (h : arm ∈ e.arms) :
    (e = .branch arm.target arm.other ∧ arm.isTrue = true) ∨
      (e = .branch arm.other arm.target ∧ arm.isTrue = false) := by
  cases e with
  | branch n m =>
    simp only [Exit.arms, List.mem_cons, List.not_mem_nil, or_false] at h
    rcases h with rfl | rfl
    · exact .inl ⟨rfl, rfl⟩
    · exact .inr ⟨rfl, rfl⟩
  | seq | ret => cases h

theorem typed_toward (hb : b.Typed R) (harm : arm ∈ b.exit.arms) :
    R.Leads b.inputStack (arm.toward b.body) (b.outputStack ++ [.i32]) := by
  unfold Arm.toward
  rcases arms_cases harm with ⟨he, htrue⟩ | ⟨he, hfalse⟩
  · rw [if_pos htrue]
    exact hb.branch he
  · rw [if_neg (by simp [hfalse])]
    exact (hb.branch he).negate

theorem leads_toward (hT : G.Typed R) (hb : G.block? id = some b) (harm : arm ∈ b.exit.arms) :
    R.Leads b.inputStack (arm.toward b.body) (b.outputStack ++ [.i32]) :=
  typed_toward (hT.blocks hb) harm

theorem meets_toward (hT : G.Typed R) (hC : G.Closed) (hb : G.block? id = some b)
    (harm : arm ∈ b.exit.arms) (hg : Good R G (id, s)) (hle : Le (s.forget K) s') :
    G.Tracks K w (Chooses R K G w arm) (id, s) (exec w (arm.toward b.body) s') := by
  rcases arms_cases harm with ⟨he, htrue⟩ | ⟨he, hfalse⟩
  · rw [Arm.toward, if_pos htrue]
    refine (meets_body hb (exec_le w _ hle)).through ?_
    rintro a t ⟨rfl, t₁, ht₁, hlt⟩ -
    obtain ⟨c, rest, hs, _, _⟩ := hg.branch hT hb he ht₁
    have hgo := goes_branch hb he ht₁ hs
    exact ⟨c, rest, by rw [hlt.stack_eq, hs], _, hgo, hg.goes hT hC hgo,
      (hlt.withStack rest).forget_left⟩
  · rw [Arm.toward, if_neg (by simp [hfalse])]
    have hm := meets_body hb (exec_le w b.body hle)
    have hneg := exec_negate w b.body s'
    generalize exec w b.body s' = x at hm hneg
    generalize exec w (Body.negate b.body) s' = y at hneg
    -- the two runs differ only at their end, where the conditions are opposite
    cases hm with
    | stuck _ h => exact .stuck _ h
    | forever h =>
      cases hneg (by simp)
      exact .forever h
    | @comes a r hs hP =>
      cases r with
      | next t =>
        obtain ⟨rfl, t₁, ht₁, hlt⟩ := hP
        obtain ⟨c, rest, hst, _, _⟩ := hg.branch hT hb he ht₁
        have hst' : t.stack = .i32 c :: rest := by rw [hlt.stack_eq, hst]
        have hgo := goes_branch hb he ht₁ hst
        have htop : ∀ u, some (Result.next t) = some (.next u) →
            ∃ c rest, u.stack = .i32 c :: rest := by
          intro u hu
          cases hu
          exact ⟨c, rest, hst'⟩
        cases hneg htop with
        | @next _ c₀ c' rest' hs' hopp =>
          rw [hst'] at hs'
          cases hs'
          have hway : (if c ≠ 0 then arm.other else arm.target) =
              if c' ≠ 0 then arm.target else arm.other := by
            by_cases hc : c = 0
            · simp [hopp.2 hc, hc]
            · simp [hopp.not.2 hc, hc]
          rw [hway] at hgo
          exact .comes hs ⟨c', rest, rfl, t₁.withStack rest, hgo, hg.goes hT hC hgo,
            (hlt.withStack rest).forget_left⟩
        | other h => exact absurd rfl (h t)
      | jump | returned | trapped =>
        cases hneg (by simp) with
        | other => exact .comes hs hP
      | stuck =>
        obtain ⟨r₀, _, hrel⟩ := hP
        cases hrel

theorem Meets.cond {params results : StackType} {a a' : Body} {P : NodeId × State → Result → Prop}
    (h : Chooses R K G w arm p t)
    (ht : ∀ q u, Good R G (arm.target, q) → Le (q.forget K) u →
      Goes (G.step K w) p (arm.target, q) → Meets (G.step K w) P (arm.target, q) (exec w a u))
    (hf : ∀ u, Reaches R K G w arm.other p u → Meets (G.step K w) P p (exec w a' u)) :
    Meets (G.step K w) P p (exec w [.cond params results a a'] t) := by
  obtain ⟨c, rest, hs, hr⟩ := h
  rw [exec_cond hs]
  by_cases hc : c ≠ 0
  · rw [if_pos hc] at hr ⊢
    obtain ⟨q, hgo, hgood, hle⟩ := hr
    exact (ht q _ hgood hle hgo).of_goes hgo
  · rw [if_neg hc] at hr ⊢
    exact hf _ hr

/-! ### Loops -/

def Turn (f : NodeId × State → Option ((NodeId × State) ⊕ Result))
    (Q N : NodeId × State → State → Prop) (label : LoopLabel) (arity : Nat) (p : NodeId × State)
    (r : Result) : Prop :=
  Along f Q (Through f N) p (endRound label arity [] r)

variable {Q N N₀ : NodeId × State → State → Prop} {label : LoopLabel} {arity : Nat}

theorem meets_loop {body : Body}
    (step : ∀ p s, Q p s → Meets (G.step K w) (Turn (G.step K w) Q N label arity) p (exec w body s))
    (h : Q p s) : G.Tracks K w N p (rounds label arity [] (exec w body) s) :=
  Meets.iter (fun p s h => (step p s h).map fun _ _ hr => hr) h

theorem not_endsAs_jump (hT : G.Typed R) (hg : Good R G p)
    (hl : R.Lacks label) : ¬ EndsAs (G.step K w) p (.jump label t) := by
  rintro ⟨r₀, hr₀, hrel⟩
  cases hrel with
  | @jump _ t₀ _ _ =>
    obtain ⟨id, s⟩ := p
    obtain ⟨b, hb, ht⟩ := hg.block
    rw [step_of_block hb, Option.map_eq_some_iff] at hr₀
    obtain ⟨r, hr, hf⟩ := hr₀
    cases follow_eq_jump hf
    have around : ∃ frame ∈ R.loops, frame.label = label := by
      cases he : b.exit with
      | seq n =>
        exact ((hT.blocks hb).seq he).jump (s := s.forget K) ht (hg.proper.forget K) hr
      | branch n m =>
        exact ((hT.blocks hb).branch he).jump (s := s.forget K) ht (hg.proper.forget K) hr
      | ret =>
        exact (((hT.blocks hb).ret he).leads []).jump (s := s.forget K) ht
          (hg.proper.forget K) hr
    obtain ⟨frame, hmem, hlabel⟩ := around
    exact hl frame hmem hlabel

theorem turn_of_endsAs (hT : G.Typed R) (hg : Good R G p) (hl : R.Lacks label) {r : Result}
    (hr : EndsAs (G.step K w) p r) : Turn (G.step K w) Q N label arity p r := by
  cases r with
  | next t =>
    obtain ⟨r₀, hr₀, hrel⟩ := hr
    cases hrel with
    | @next t₀ =>
      obtain ⟨id, s⟩ := p
      obtain ⟨b, hb, _⟩ := hg.block
      rw [step_of_block hb, Option.map_eq_some_iff] at hr₀
      obtain ⟨r, _, hf⟩ := hr₀
      exact absurd hf follow_ne_next
  | jump l t =>
    have hne : l ≠ label := by
      rintro rfl
      exact not_endsAs_jump hT hg hl hr
    simp only [Turn, endRound, if_neg hne]
    exact hr
  | returned t => exact hr
  | trapped t => exact hr
  | stuck => exact hr

theorem Meets.andThen_turn (hT : G.Typed R) (hC : G.Closed) (hg : Good R G p)
    (hl : R.Lacks label) {x : Option Result} {k : State → Option Result}
    (h : G.Tracks K w N₀ p x)
    (hk : ∀ q t, Good R G q → N₀ q t → Meets (G.step K w) (Turn (G.step K w) Q N label arity) q (k t)) :
    Meets (G.step K w) (Turn (G.step K w) Q N label arity) p (andThen x k) := by
  cases h with
  | stuck _ h => exact .stuck _ h
  | forever h => exact .forever h
  | @comes q r hs hP =>
    have hgood := hg.steps hT hC hs
    cases r with
    | next t => exact (hk q t hgood hP).of_steps hs
    | jump | returned | trapped | stuck => exact .comes hs (turn_of_endsAs hT hgood hl hP)

/-! ### Blocks that serve -/

abbrev Same (G' : Chart) (i j : NodeId) : Prop := i = j ∧ G'.Live j

def Serves (R : Regime) (K : LocalId → Prop) (G G' : Chart) (id : NodeId) (b' : Block) : Prop :=
  ∀ w s s', Good R G (id, s) → Le (s.forget K) s' →
    Meets (G.step K w) (Along (G.step K w) (Beside R K G (Same G')) (EndsAs (G.step K w))) (id, s)
      ((exec w b'.body s').map (follow b'.exit))

/-- The stacks of a block fit in the place of another one. -/
structure Suits (R : Regime) (G : Chart) (id : NodeId) (b' : Block) : Prop where
  input : ∃ b, G.block? id = some b ∧ b'.inputStack = b.inputStack
  typed : b'.Typed R
  edges : ∀ {out b''}, out ∈ b'.exit.outputs → G.block? out = some b'' →
    R.Fits b'.outputStack b''.inputStack

theorem serves_seq (hC' : G'.Closed) (hb' : G'.block? id = some b') (he : b'.exit = .seq n)
    (h : ∀ w s s', Good R G (id, s) → Le (s.forget K) s' →
      G.Tracks K w (Reaches R K G w n) (id, s) (exec w b'.body s')) :
    Serves R K G G' id b' := by
  intro w s s' hg hle
  refine (h w s s' hg hle).map fun p r hr => ?_
  rw [he]
  cases r with
  | next t =>
    obtain ⟨t₁, hgo, hgood, hlt⟩ := hr
    exact ⟨(n, t₁), hgo, ⟨rfl, hC'.targets id n ⟨b', hb', Exit.mem_seq he⟩⟩, hgood, hlt⟩
  | jump | returned | trapped | stuck => exact hr

theorem serves_ret (he : b'.exit = .ret)
    (h : ∀ w s s', Good R G (id, s) → Le (s.forget K) s' →
      G.Tracks K w (fun _ _ => False) (id, s) (exec w b'.body s')) :
    Serves R K G G' id b' := by
  intro w s s' hg hle
  refine (h w s s' hg hle).map fun p r hr => ?_
  rw [he]
  cases r with
  | next t => cases hr
  | jump | returned | trapped | stuck => exact hr

/-- **A chart whose blocks serve may take the place of another one.** -/
theorem improves_of_blocks (hT : G.Typed R) (hC : G.Closed) (hC' : G'.Closed)
    (hentry : G'.entry = G.entry)
    (h : ∀ {j b'}, G'.block? j = some b' → G.block? j = some b' ∨ Serves R K G G' j b') :
    Improves R K G G' := by
  intro w s s' hg hle
  rw [hentry]
  refine walk_refines (R := R) (M := Same G') ?_ ⟨⟨rfl, hentry ▸ hC'.entry⟩, hg, hle⟩
  rintro ⟨i, t⟩ ⟨j, t'⟩ ⟨⟨hij, b', hb'⟩, hgood, hlt⟩
  cases (show i = j from hij)
  rcases h hb' with hb | hserves
  · refine met_alike hT hC hb hb' rfl (alike_refl fun n hn => ⟨rfl, hC'.targets _ n ⟨b', hb', hn⟩⟩)
      hgood hlt
  · show Meets _ _ _ (G'.step K w (i, t'))
    rw [step_of_block hb']
    exact hserves w t _ hgood hlt.forget_right

/-- **A chart whose blocks suit is typed.** -/
theorem typed_of_blocks (hT : G.Typed R)
    (h : ∀ {j b'}, G'.block? j = some b' → G.block? j = some b' ∨ Suits R G j b') : G'.Typed R := by
  have hinput : ∀ {j b'}, G'.block? j = some b' →
      ∃ b, G.block? j = some b ∧ b'.inputStack = b.inputStack := by
    intro j b' hb'
    rcases h hb' with hb | hs
    · exact ⟨b', hb, rfl⟩
    · exact hs.input
  refine ⟨fun hb' => ?_, fun hb' hout hb'' => ?_⟩
  · rcases h hb' with hb | hs
    · exact hT.blocks hb
    · exact hs.typed
  · obtain ⟨b, hb, hin⟩ := hinput hb''
    rw [hin]
    rcases h hb' with hb' | hs
    · exact hT.edges hb' hout hb
    · exact hs.edges hout hb

/-! ### Charts with blocks changed or gone -/

theorem update_cases (hb : G.block? id = some b) (h : (G.update id f).block? j = some b') :
    (j = id ∧ b' = f b) ∨ (j ≠ id ∧ G.block? j = some b') := by
  by_cases hj : j = id
  · subst hj
    rw [update_self, hb] at h
    cases h
    exact .inl ⟨rfl, rfl⟩
  · rw [update_of_ne _ hj] at h
    exact .inr ⟨hj, h⟩

theorem Closed.update (hC : G.Closed) (hb : G.block? id = some b)
    (hf : ∀ out ∈ (f b).exit.outputs, G.Live out) : (G.update id f).Closed where
  entry := (live_update f).2 hC.entry
  targets := by
    rintro p j ⟨b', hb', hout⟩
    rw [live_update]
    rcases update_cases hb hb' with ⟨_, rfl⟩ | ⟨_, hb'⟩
    · exact hf j hout
    · exact hC.targets p j ⟨b', hb', hout⟩

theorem Closed.erase {a : NodeId} (hC : G.Closed) (hentry : a ≠ G.entry)
    (ha : ∀ q, q ≠ a → ¬ G.Targets q a) : (G.erase a).Closed where
  entry := live_erase.2 ⟨hentry.symm, hC.entry⟩
  targets := by
    intro q j hq
    obtain ⟨hqa, hqj⟩ := targets_erase.1 hq
    refine live_erase.2 ⟨?_, hC.targets q j hqj⟩
    rintro rfl
    exact ha q hqa hqj

theorem block?_of_erase {a : NodeId} (h : (G.erase a).block? j = some b') :
    j ≠ a ∧ G.block? j = some b' := by
  by_cases hj : j = a
  · subst hj
    simp at h
  · exact ⟨hj, by rwa [erase_of_ne hj] at h⟩

theorem Closed.dropOrphan (hC : G.Closed) (a : NodeId) : (G.dropOrphan a).Closed := by
  rcases dropOrphan_cases G a with h | ⟨h, ha, hentry⟩
  · rw [h]
    exact hC
  · rw [h]
    exact hC.erase hentry fun q _ => ha q

theorem block?_of_dropOrphan {a : NodeId} (h : (G.dropOrphan a).block? j = some b') :
    G.block? j = some b' := by
  rcases dropOrphan_cases G a with hd | ⟨hd, _, _⟩
  · rwa [hd] at h
  · rw [hd] at h
    exact (block?_of_erase h).2

@[simp] theorem dropOrphan_entry (a : NodeId) : (G.dropOrphan a).entry = G.entry := by
  rcases dropOrphan_cases G a with h | ⟨h, _, _⟩ <;> rw [h]
  rfl

end Chart

end Structurer
