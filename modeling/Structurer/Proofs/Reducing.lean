/-
**Sound graphs and their reduction.**

A consistent graph is tidy, and its chart is closed; a sound graph is typed, too.  A rule that applies to
a consistent graph gives a consistent graph again, one that is lighter.  If the old graph is sound, so is
the new one, and its chart may take the place of the old one.
-/

import Structurer.Proofs.Growth
import Structurer.Proofs.Replacement
import Structurer.Proofs.Weight

namespace Structurer

open Engine Fallible Chart

variable {e : Exit} {arm : Arm} {F : Block → Block} {c : Block} {ctx ctx' : Context} {plain : Prop}
  {g g' : Graph}

/-! ### Consistent and sound graphs -/

namespace Graph

variable {f : Node → Node}

/-- A graph whose links are in order. -/
structure Consistent (g : Graph) : Prop where
  tidy : g.Tidy
  closed : g.chart.Closed

/-- A graph that passes its check. -/
structure Sound (ctx : Context) (plain : Prop) (g : Graph) : Prop extends g.Consistent where
  typed : g.chart.Typed (ctx.regime plain)

variable {id p : NodeId} {b : Block} {n : Node}

theorem Sound.grows (h : g.Sound ctx plain) (hg : ctx.Grows ctx') : g.Sound ctx' plain :=
  ⟨h.toConsistent, h.typed.mono (hg.regime plain)⟩

theorem node_of_block (h : g.chart.block? id = some b) : ∃ n, g.node id = .ok n ∧ n.block = b := by
  obtain ⟨n, hn, hb⟩ := get?_of_block? h
  exact ⟨n, node_eq_ok_iff.2 hn, hb⟩

theorem works_node (h : g.chart.block? id = some b) :
    Works (g.node id) fun n => g.get? id = some n ∧ n.block = b := by
  obtain ⟨n, hn, hb⟩ := node_of_block h
  exact .of_eq hn ⟨node_eq_ok_iff.1 hn, hb⟩

theorem works_removeNode (h : g.chart.block? id = some b) :
    Works (g.removeNode id) fun e => e.1.block = b ∧ e.2 = g.erase id := by
  obtain ⟨n, hn, hb⟩ := get?_of_block? h
  exact .of_eq (removeNode_eq_ok hn) ⟨hb, rfl⟩

theorem Consistent.block_of_mem (h : g.Consistent) (hn : (id, n) ∈ g.nodes) :
    g.chart.block? id = some n.block :=
  block?_of_get? ((get?_eq_some_iff h.tidy.nodup).2 hn)

theorem Consistent.target (h : g.Consistent) (hb : g.chart.block? p = some b)
    (hid : id ∈ b.exit.outputs) : ∃ b', g.chart.block? id = some b' :=
  h.closed.targets p id ⟨b, hb, hid⟩

theorem Consistent.ne_nil (h : g.Consistent) : g.nodes ≠ [] := by
  intro hnil
  obtain ⟨b, hb⟩ := h.closed.entry
  obtain ⟨n, hn, _⟩ := get?_of_block? hb
  rw [get?, hnil] at hn
  cases hn

/-- **A sound graph passes its check.** -/
theorem Sound.inspect (h : g.Sound ctx plain) : ctx.inspect g = .ok () := by
  have hle : Regime.Le (ctx.regime plain) (ctx.regime False) := ⟨.refl _, .refl _, False.elim⟩
  exact (Context.inspect_eq_ok_iff h.tidy h.ne_nil).2 ⟨h.closed, h.typed.mono hle⟩

/-! ### Places where a rule applies -/

theorem mem_outputs_of_arm (h : arm ∈ e.arms) : arm.target ∈ e.outputs ∧ arm.other ∈ e.outputs := by
  rcases arms_cases h with ⟨rfl, _⟩ | ⟨rfl, _⟩ <;> simp [Exit.outputs]

theorem heft_of_arm {b : Block} (h : arm ∈ b.exit.arms) : b.heft = 3 := by
  rcases arms_cases h with ⟨he, _⟩ | ⟨he, _⟩ <;> simp [Block.heft, he]

theorem Consistent.firstArm? (hs : g.Consistent) {t : NodeId → Arm → Except Fault Bool}
    {P : NodeId → Block → Arm → Prop}
    (h : ∀ id b arm, g.chart.block? id = some b → arm ∈ b.exit.arms →
      Works (t id arm) fun r => r = true → P id b arm) :
    Works (g.firstArm? t) fun r => ∀ id arm, r = some (id, arm) →
      ∃ b, g.chart.block? id = some b ∧ arm ∈ b.exit.arms ∧ P id b arm := by
  refine (Works.findSomeM? (P := fun e => ∃ b, g.chart.block? e.1 = some b ∧ e.2 ∈ b.exit.arms ∧
    P e.1 b e.2) ?_).mono fun r hr id arm he => hr (id, arm) he
  rintro ⟨id, n⟩ hn
  have hb := hs.block_of_mem hn
  refine (Works.findM? (P := fun arm => P id n.block arm) fun arm harm => h id _ arm hb harm).bind ?_
  intro r hr
  refine .pure ?_
  rintro ⟨id', arm⟩ he
  obtain ⟨arm', harm', hpair⟩ := Option.map_eq_some_iff.1 he
  cases hpair
  obtain ⟨hmem, hP⟩ := hr arm harm'
  exact ⟨n.block, hb, hmem, hP⟩

theorem works_hasExit (h : g.chart.block? id = some b) (exit : Exit) :
    Works (g.hasExit id exit) fun r => r = true → b.exit = exit := by
  refine (works_node h).bind ?_
  rintro n ⟨_, rfl⟩
  exact .pure fun hr => by simpa using hr

theorem Consistent.onlyInput (hs : g.Consistent) (h : g.chart.block? id = some b) (p : NodeId) :
    Works (g.onlyInput id p) fun r => r = true →
      id ≠ g.entry ∧ ∀ q, g.chart.Targets q id → q = p := by
  refine (works_node h).bind ?_
  rintro n ⟨hn, rfl⟩
  refine .pure fun hr => ?_
  simp only [Bool.and_eq_true, decide_eq_true_eq, beq_iff_eq] at hr
  refine ⟨hr.1, fun q hq => ?_⟩
  have hmem : q ∈ n.inputs.toList := (hs.tidy.mem_inputs_iff hn).2 hq
  rw [hr.2] at hmem
  exact List.mem_singleton.1 hmem

theorem works_canAbsorb (h : g.chart.block? id = some b) (dup : Bool) (p : NodeId) :
    Works (g.canAbsorb dup id p) fun r => r = true → True := by
  unfold canAbsorb
  split
  · exact .pure fun _ => trivial
  · exact (works_node h).bind fun n _ => .pure fun _ => trivial

/-! ### Nodes changed -/

theorem Tidy.change (hg : g.Tidy) (hid : g.chart.Live id) (h : Alters f F) (exit : Exit) :
    Works ((g.modify id f).setExit id exit) fun g' =>
      g'.Tidy ∧ (g'.chart = g.chart.update id fun b => (F b).withExit exit) ∧ g'.ids = g.ids ∧
        g'.nextSerial = g.nextSerial := by
  have hg₁ : (g.modify id f).Tidy := hg.modify h
  have hchart : (g.modify id f).chart = g.chart.update id F := chart_modify h.block
  obtain ⟨g', hg', htidy, hids, hserial, hc⟩ :=
    hg₁.setExit (by rw [hchart]; exact (live_update F).2 hid) exit
  refine .of_eq hg' ⟨htidy, ?_, by rw [hids, ids_modify], hserial⟩
  rw [hc, hchart, update_update]

/-! ### Rules that apply -/

/-- What every rule does to a graph that it applies to. -/
structure Shrinks (g g' : Graph) : Prop where
  consistent : g'.Consistent
  lighter : g'.chart.Lighter g.chart

theorem Shrinks.weight_lt (h : g.Shrinks g') (hs : g.Consistent) : g'.weight < g.weight :=
  hs.tidy.weight_lt h.consistent.tidy h.lighter

/-- A rule changes one block, and may take others out. -/
structure Recasts (g : Graph) (id : NodeId) (b c : Block) (g' : Graph) : Prop where
  old : g.chart.block? id = some b
  consistent : g'.Consistent
  entry : g'.chart.entry = g.chart.entry
  blocks : ∀ {j d}, g'.chart.block? j = some d →
    (j = id ∧ d = c) ∨ (j ≠ id ∧ g.chart.block? j = some d)
  heft : c.heft ≤ b.heft
  less : c.heft < b.heft ∨ ∃ j, g.chart.Live j ∧ g'.chart.block? j = none

theorem Recasts.shrinks (h : g.Recasts id b c g') : g.Shrinks g' := by
  have hself : g'.chart.heft id ≤ c.heft := by
    cases hd : g'.chart.block? id with
    | none =>
      rw [heft_of_none hd]
      exact Nat.zero_le _
    | some d =>
      rcases h.blocks hd with ⟨_, rfl⟩ | ⟨hne, _⟩
      · rw [heft_of_block hd]
      · exact absurd rfl hne
  refine ⟨h.consistent, fun j => ?_, ?_⟩
  · cases hd : g'.chart.block? j with
    | none =>
      rw [heft_of_none hd]
      exact Nat.zero_le _
    | some d =>
      rcases h.blocks hd with ⟨rfl, _⟩ | ⟨_, hj⟩
      · rw [heft_of_block h.old]
        exact Nat.le_trans hself h.heft
      · rw [heft_of_block hd, heft_of_block hj]
  · rcases h.less with hlt | ⟨j, hj, hnone⟩
    · exact ⟨id, Nat.lt_of_le_of_lt hself (by rwa [heft_of_block h.old])⟩
    · exact ⟨j, by rw [heft_of_none hnone]; exact heft_pos_iff.2 hj⟩

theorem Consistent.recasts (hs : g.Consistent) (hb : g.chart.block? id = some b) (h : Alters f F)
    (exit : Exit) (hexit : ∀ out ∈ exit.outputs, g.chart.Live out)
    (hless : ((F b).withExit exit).heft < b.heft) (orphans : List NodeId) :
    Works ((g.modify id f).setExit id exit) fun g' =>
      g.Recasts id b ((F b).withExit exit) (orphans.foldl eraseOrphan g') := by
  refine (hs.tidy.change ⟨b, hb⟩ h exit).mono ?_
  rintro g₁ ⟨htidy, hchart, -⟩
  have hclosed : g₁.chart.Closed := by
    rw [hchart]
    exact hs.closed.update hb hexit
  have hblocks : ∀ {j d}, g₁.chart.block? j = some d →
      (j = id ∧ d = (F b).withExit exit) ∨ (j ≠ id ∧ g.chart.block? j = some d) := by
    intro j d hd
    rw [hchart] at hd
    exact update_cases hb hd
  have hentry : g₁.chart.entry = g.chart.entry := by
    rw [hchart]
    rfl
  have h₁ : g.Recasts id b ((F b).withExit exit) g₁ :=
    ⟨hb, ⟨htidy, hclosed⟩, hentry, hblocks, Nat.le_of_lt hless, .inl hless⟩
  clear htidy hchart hclosed hblocks hentry
  induction orphans generalizing g₁ with
  | nil => exact h₁
  | cons a orphans ih =>
    obtain ⟨htidy, hchart, _⟩ := h₁.consistent.tidy.eraseOrphan a
    refine ih _ ⟨hb, ⟨htidy, ?_⟩, ?_, fun {j d} hd => ?_, h₁.heft, .inl hless⟩
    · rw [hchart]
      exact h₁.consistent.closed.dropOrphan a
    · rw [hchart, dropOrphan_entry, h₁.entry]
    · rw [hchart] at hd
      exact h₁.blocks (block?_of_dropOrphan hd)

theorem Consistent.absorbs (hs : g.Consistent) (hb : g.chart.block? id = some b) {a : NodeId}
    (ha : g.chart.block? a = some c) (hne : a ≠ id) (hentry : a ≠ g.entry)
    (honly : ∀ q, g.chart.Targets q a → q = id) (h : Alters f F)
    (hexit : ∀ out ∈ e.outputs, out ≠ a ∧ g.chart.Live out)
    (hheft : ((F b).withExit e).heft ≤ b.heft) :
    Works (((g.erase a).modify id f).setExit id e) fun g' =>
      g.Recasts id b ((F b).withExit e) g' := by
  obtain ⟨htidy, hchart, _⟩ := hs.tidy.erase a
  have hid : (g.erase a).chart.Live id := by
    rw [hchart]
    exact live_erase.2 ⟨hne.symm, b, hb⟩
  refine (htidy.change hid h e).mono ?_
  rintro g' ⟨htidy', hchart', _⟩
  rw [hchart, update_erase hne.symm] at hchart'
  have hgone : g'.chart.block? a = none := by
    rw [hchart']
    simp
  have hblocks : ∀ {j d}, g'.chart.block? j = some d →
      (j = id ∧ d = (F b).withExit e) ∨ (j ≠ id ∧ g.chart.block? j = some d) := by
    intro j d hd
    rw [hchart'] at hd
    exact update_cases hb (block?_of_erase hd).2
  refine ⟨hb, ⟨htidy', ?_⟩, by rw [hchart']; rfl, hblocks, hheft, .inr ⟨a, ⟨c, ha⟩, hgone⟩⟩
  rw [hchart']
  refine (hs.closed.update hb fun out hout => (hexit out hout).2).erase hentry ?_
  rintro q _ ⟨d, hd, hout⟩
  rcases update_cases hb hd with ⟨_, rfl⟩ | ⟨hq, hd⟩
  · exact (hexit a hout).1 rfl
  · exact hq (honly q ⟨d, hd, hout⟩)

end Graph

/-! ### Attempts -/

/-- What comes of the attempt to apply a rule: nothing at all, or a graph with a property. -/
structure Attempt (ctx : Context) (P : Graph → Context → Prop) (r : Option Graph) (ctx' : Context) :
    Prop where
  none : r = none → ctx' = ctx
  some : ∀ g', r = some g' → P g' ctx'

namespace Attempt

variable {P P' : Graph → Context → Prop} {r : Option Graph}

theorem nothing : Attempt ctx P .none ctx := ⟨fun _ => rfl, nofun⟩

theorem success (h : P g' ctx') : Attempt ctx P (.some g') ctx' :=
  ⟨nofun, fun _ hg => by cases hg; exact h⟩

theorem mono (h : Attempt ctx P r ctx') (hP : ∀ g', P g' ctx' → P' g' ctx') : Attempt ctx P' r ctx' :=
  ⟨h.none, fun g' hg => hP g' (h.some g' hg)⟩

theorem of_works {x : Except Fault (Option Graph)} (h : Works x fun r => ∀ g', r = .some g' → P g' ctx) :
    Succeeds (liftM x) ctx (Attempt ctx P) := by
  refine (Succeeds.works h ctx).mono ?_
  rintro r _ ⟨rfl, hr⟩
  exact ⟨fun _ => rfl, hr⟩

theorem of_get {f : Context → Except Fault (Option Graph)}
    (h : Works (f ctx) fun r => ∀ g', r = .some g' → P g' ctx) :
    Succeeds (do f (← get) : EngineM (Option Graph)) ctx (Attempt ctx P) := by
  refine (Succeeds.get ctx).bind ?_
  rintro _ _ ⟨rfl, rfl⟩
  exact of_works h

end Attempt

/-! ### Reductions -/

/-- What a rule does to a graph. -/
structure Reduces (plain : Prop) (ctx : Context) (g : Graph) (ctx' : Context) (g' : Graph) : Prop where
  grows : ctx.Grows ctx'
  sound : g'.Sound ctx' plain
  lighter : g'.chart.Lighter g.chart
  entry : ∀ {b b'}, g.chart.block? g.entry = some b → g'.chart.block? g'.entry = some b' →
    (ctx.regime plain).Fits b'.inputStack b.inputStack
  improves : plain → ∀ K, g.chart.Improves (ctx.regime plain) K g'.chart

theorem Chart.Good.mono {R R' : Regime} (hR : Regime.Le R R') {G : Chart} {p : NodeId × Machine.State}
    (h : Good R G p) : Good R' G p :=
  ⟨h.block, h.proper.mono (hR.checker.locals _ _)⟩

theorem Chart.Improves.mono {R R' : Regime} (hR : Regime.Le R R') {K : LocalId → Prop} {G G' : Chart}
    (h : G.Improves R' K G') : G.Improves R K G' :=
  fun w s s' hg hle => h w s s' (hg.mono hR) hle

theorem Reduces.of_blocks (hs : g.Sound ctx plain) (hg : ctx.Grows ctx') (shrinks : g.Shrinks g')
    (entry : g'.chart.entry = g.chart.entry)
    (blocks : ∀ {j b'}, g'.chart.block? j = some b' → g.chart.block? j = some b' ∨
      Suits (ctx'.regime plain) g.chart j b' ∧
        ∀ K, Serves (ctx'.regime plain) K g.chart g'.chart j b') :
    Reduces plain ctx g ctx' g' where
  grows := hg
  sound := ⟨shrinks.consistent,
    typed_of_blocks (hs.grows hg).typed fun hb => (blocks hb).imp id And.left⟩
  lighter := shrinks.lighter
  entry := by
    intro b b' hb hb'
    have hentry : g'.entry = g.entry := entry
    rw [hentry] at hb'
    rcases blocks hb' with hb' | ⟨hsuits, _⟩
    · rw [hb] at hb'
      cases hb'
      exact .refl _ _
    · obtain ⟨b₀, hb₀, hin⟩ := hsuits.input
      rw [hb] at hb₀
      cases hb₀
      rw [hin]
      exact .refl _ _
  improves := fun _ K =>
    (improves_of_blocks (hs.grows hg).typed hs.closed shrinks.consistent.closed entry fun hb =>
      (blocks hb).imp id fun h => h.2 K).mono (hg.regime plain)

abbrev Reduced (plain : Prop) (ctx : Context) (g : Graph) : Option Graph → Context → Prop :=
  Attempt ctx fun g' ctx' => Reduces plain ctx g ctx' g'

abbrev Reducing (plain : Prop) (ctx : Context) (g : Graph) (x : Except Fault (Option Graph)) : Prop :=
  Works x fun r => ∀ g', r = some g' → Reduces plain ctx g ctx g'

theorem Reduces.of_recasts (hs : g.Sound ctx plain) (hg : ctx.Grows ctx') {id : NodeId} {b : Block}
    (h : g.Recasts id b c g') (suits : Suits (ctx'.regime plain) g.chart id c)
    (serves : g'.chart.block? id = some c →
      ∀ K, Serves (ctx'.regime plain) K g.chart g'.chart id c) :
    Reduces plain ctx g ctx' g' := by
  refine .of_blocks hs hg h.shrinks h.entry fun {j d} hd => ?_
  rcases h.blocks hd with ⟨rfl, rfl⟩ | ⟨_, hj⟩
  · exact .inr ⟨suits, serves hd⟩
  · exact .inl hj

end Structurer
